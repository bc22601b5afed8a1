import PcpModel.PduResult.Layout

-- Where the blocks of a decoded result lie.
namespace PduResult

open Memory Memory.Prog List CInt Option

-- A step over packed items changes nothing in front of them.
def Onward (f : Int × Bytes → Int × Bytes) : Prop :=
  ∀ p, p.1 ≤ (f p).1 ∧ ∀ i < p.1, (f p).2 i = p.2 i

theorem Onward.iterate (h : Onward f) : ∀ n, Onward f^[n]
  | 0, _ => ⟨le_rfl, fun _ _ => rfl⟩
  | n + 1, p => by
    have ⟨h₁, h₂⟩ := h p
    have ⟨h₃, h₄⟩ := h.iterate n (f p)
    rw [Function.iterate_succ_apply]
    exact ⟨h₁.trans h₃, fun i hi => (h₄ i (hi.trans_le h₁)).trans (h₂ i hi)⟩

theorem nextParam_onward : Onward nextParam := by
  intro p
  refine ⟨by simp only [nextParam]; omega, fun i hi => ?_⟩
  simp only [nextParam]
  rw [rev_beside (by omega), rev_beside (by omega), rev_beside (by omega)]

theorem nextRecord_onward : Onward nextRecord := by
  intro p
  have ⟨h₁, h₂⟩ := nextParam_onward.iterate (nparams p) (recordHead p)
  have h₃ : (recordHead p).1 = p.1 + 16 := rfl
  refine ⟨by rw [nextRecord]; omega, fun i hi => (h₂ i (by omega)).trans ?_⟩
  simp only [recordHead]
  rw [rev_beside (by omega), rev_beside (by omega), rev_beside (by omega), rev_beside (by omega)]

theorem swapBlock_front (h : i < vb) : swapBlock vb m i = m i := by
  unfold swapBlock
  split
  · refine ((nextRecord_onward.iterate _ _).right i ?_).trans ?_
    · exact h.trans (by simp only [eventHead]; omega)
    · simp only [eventHead]
      rw [rev_beside (by omega), rev_beside (by omega)]
  · rw [rev_beside (by omega), rev_beside (by omega)]

-- The swaps of a block do not change the length of another one.
def Apart (x y : Int) (m : Bytes) : Prop :=
  x = y ∨ vlen (swapBlock y m) x = vlen m x

namespace Item

def Apart : Item → Item → Prop
  | .block x _, .block y m => PduResult.Apart x y m
  | _, _ => True

def InRange (len : Int) : Item → Prop
  | vset v _ => 0 ≤ v ∧ 24 + v ≤ len
  | block vb _ => 0 < vb ∧ vb ≤ len

instance : DecidableRel Apart
  | .block _ _, .block _ _ => inferInstanceAs (Decidable (_ ∨ _))
  | .vset _ _, _ | .block _ _, .vset _ _ => inferInstanceAs (Decidable True)

instance : DecidablePred (InRange len)
  | vset _ _ | block _ _ => inferInstanceAs (Decidable (_ ∧ _))

theorem InRange.inside {i : Item} (h : i.InRange len) : i.Inside len := by
  cases i
  case vset => exact ⟨le_trans (by simp) h.left, h.right⟩
  case block => exact h.right

end Item

-- All addresses are in range, and a block is not changed by the swaps of a later one.
structure Tame (len : Int) (l : List Item) : Prop where
  range : ∀ i ∈ l, i.InRange len
  apart : l.Pairwise Item.Apart

instance : Decidable (Tame len l) :=
  decidable_of_iff ((∀ i ∈ l, i.InRange len) ∧ l.Pairwise Item.Apart)
    ⟨fun h => ⟨h.left, h.right⟩, fun h => ⟨h.range, h.apart⟩⟩

-- The bytes of the value sets in the new buffer.
def newBytes : List Item → Int
  | [] => 0
  | .vset _ numval :: l => newSize numval + newBytes l
  | .block _ _ :: l => newBytes l

theorem newBytes_append : newBytes (l₁ ++ l₂) = newBytes l₁ + newBytes l₂ := by
  induction l₁
  case nil => simp [newBytes]
  case cons i l hi => cases i <;> simp [newBytes, hi, add_assoc]

theorem newBytes_nonneg : 0 ≤ newBytes l := by
  induction l
  case nil => rfl
  case cons i l hi =>
    cases i
    case vset =>
      simp only [newBytes, newSize]
      split <;> omega
    case block => exact hi

def Good (len : Int) (m : Bytes) (vb : Int) : Prop :=
  4 ≤ vlen m vb ∧ vb + vlen m vb ≤ len

structure Pass (len : Int) (m m' : Bytes) (s s' : Sums) (l : List Item) : Prop where
  split_le : s'.vsplit ≤ s.vsplit
  split : ∀ vb m₀, .block vb m₀ ∈ l → s'.vsplit ≤ vb
  frame : ∀ i < s'.vsplit, m' i = m i
  header : ∀ i < 4, m' i = m i
  keeps : ∀ x, Good len m x → (∀ vb m₀, .block vb m₀ ∈ l → Apart x vb m₀) → Good len m' x
  good : ∀ vb m₀, .block vb m₀ ∈ l → Good len m' vb

namespace Tame

theorem block (h : Tame len l) (hb : .block vb m ∈ l) : 0 < vb ∧ vb ≤ len :=
  h.range _ hb

theorem append (h : Tame len (l₁ ++ l₂)) : Tame len l₁ ∧ Tame len l₂ ∧
    ∀ x mx, .block x mx ∈ l₁ → ∀ y my, .block y my ∈ l₂ → Apart x y my := by
  have ⟨h₁, h₂, h₁₂⟩ := pairwise_append.mp h.apart
  refine ⟨⟨?_, h₁⟩, ⟨?_, h₂⟩, fun _ _ hx _ _ hy => h₁₂ _ hx _ hy⟩
  · exact fun v hv => h.range v (mem_append_left _ hv)
  · exact fun v hv => h.range v (mem_append_right _ hv)

theorem tail (h : Tame len (i :: l)) : Tame len l :=
  ⟨fun j hj => h.range j (mem_cons_of_mem i hj), h.apart.tail⟩

end Tame

namespace Pass

theorem none (hs : s'.vsplit = s.vsplit) (hl : ∀ vb m₀, .block vb m₀ ∉ l) :
    Pass len m m s s' l where
  split_le := hs.le
  split := fun _ _ h => absurd h (hl _ _)
  frame := fun _ _ => rfl
  header := fun _ _ => rfl
  keeps := fun _ h _ => h
  good := fun _ _ h => absurd h (hl _ _)

theorem trans (h₁ : Pass len m m₁ s s₁ l₁) (h₂ : Pass len m₁ m₂ s₁ s₂ l₂)
    (ht : Tame len (l₁ ++ l₂)) : Pass len m m₂ s s₂ (l₁ ++ l₂) where
  split_le := h₂.split_le.trans h₁.split_le
  split vb m₀ h := by
    cases mem_append.mp h with
    | inl h => exact h₂.split_le.trans (h₁.split vb m₀ h)
    | inr h => exact h₂.split vb m₀ h
  frame i hi := (h₂.frame i hi).trans <| h₁.frame i <| hi.trans_le h₂.split_le
  header i hi := (h₂.header i hi).trans (h₁.header i hi)
  keeps x hx hl := by
    refine h₂.keeps x (h₁.keeps x hx fun vb _ h => ?_) fun vb _ h => ?_
    · exact hl vb _ (mem_append_left _ h)
    · exact hl vb _ (mem_append_right _ h)
  good vb m₀ h := by
    cases mem_append.mp h with
    | inl h => exact h₂.keeps vb (h₁.good vb m₀ h) (ht.append.right.right vb m₀ h)
    | inr h => exact h₂.good vb m₀ h

theorem block (hd : vb % 4 = 0) (h₀ : 0 < vb) (hg : Good len (swapBlock vb m) vb) :
    Pass len m (swapBlock vb m) s (s.addBlock vb n) [.block vb m] := by
  have hf {i} (hi : i < vb) : swapBlock vb m i = m i := swapBlock_front hi
  constructor
  case split_le => exact min_le_left _ _
  case split =>
    intro x _ hx
    cases mem_singleton.mp hx
    exact min_le_right _ _
  case frame => exact fun i hi => hf <| hi.trans_le (min_le_right _ _)
  case header => exact fun i hi => hf (by omega)
  case keeps =>
    intro x hx ha
    cases ha vb m (mem_singleton_self _)
    case inl he => exact he ▸ hg
    case inr he => rwa [Good, he]
  case good =>
    intro x _ hx
    cases mem_singleton.mp hx
    exact hg

end Pass

section

variable {len a : Int} {n : Nat} {s s' : Sums} {m m' : Bytes}

theorem blockAddr_mod : blockAddr m a % 4 = 0 := by
  unfold blockAddr
  omega

-- What has been found where the pass ends with a result.
theorem findValues_succ (h : (findValues len (n + 1) a s m).result = some r) :
    let vb := blockAddr m a
    let m₁ := swapBlock vb m
    let f := findValues len n (a + 8) (s.addBlock vb (vlen m₁ vb)) m₁
    0 ≤ vb ∧ Good len m₁ vb ∧
      findValues len (n + 1) a s m = ⟨.block vb m :: f.items, f.result⟩ := by
  rw [findValues] at h
  split at h
  case isFalse => contradiction
  case isTrue hr =>
    rw [Found.cons] at h
    split at h
    case isFalse => contradiction
    case isTrue hb =>
      refine ⟨hr.right.left, ⟨by have := hb.left; omega, hb.right.right⟩, ?_⟩
      rw [findValues, if_pos hr, if_pos hb, Found.cons]

theorem findSets_succ (h : (findSets len (n + 1) s m).result = some r) :
    SetPasses len s m ∧ ∃ s₁ m₁, (findBlocks len s m).result = some (s₁, m₁) ∧
      let f := findSets len n s₁ m₁
      findSets len (n + 1) s m =
        ⟨.vset s.vsize (setNumval s m) :: ((findBlocks len s m).items ++ f.items), f.result⟩ := by
  rw [findSets] at h
  split at h
  case isFalse => contradiction
  case isTrue ht =>
    rw [Found.cons] at h
    split at h
    case isFalse => contradiction
    case isTrue hp =>
      cases hf : (findBlocks len s m).result
      case none =>
        rw [Found.bind, hf] at h
        cases hf.symm.trans h
      case some r =>
        refine ⟨hp, r.1, r.2, rfl, ?_⟩
        rw [findSets, if_pos ht, if_pos hp, Found.bind, hf, Found.cons]

theorem findValues_pass (h : (findValues len n a s m).result = some (s', m'))
    (ht : Tame len (findValues len n a s m).items) :
    Pass len m m' s s' (findValues len n a s m).items := by
  induction n generalizing a s m
  case zero =>
    cases h
    exact .none rfl nofun
  case succ n hi =>
    obtain ⟨_, hg, he⟩ := findValues_succ h
    rw [he] at h ht ⊢
    have h₀ := (ht.block mem_cons_self).left
    exact (Pass.block blockAddr_mod h₀ hg).trans (hi h ht.tail) ht

theorem findSets_pass (h : (findSets len n s m).result = some (s', m'))
    (ht : Tame len (findSets len n s m).items) :
    Pass len m m' s s' (findSets len n s m).items := by
  induction n generalizing s m
  case zero =>
    cases h
    exact .none rfl nofun
  case succ n hi =>
    obtain ⟨-, s₁, m₁, hb, he⟩ := findSets_succ h
    rw [he] at h ht ⊢
    have hl := ht.tail
    have ⟨ht₁, ht₂, _⟩ := hl.append
    have hp : Pass len m m s (s.addSet (setNumval s m)) [.vset s.vsize (setNumval s m)] := by
      refine .none ?_ (by simp)
      unfold Sums.addSet
      split <;> rfl
    exact hp.trans ((findValues_pass hb ht₁).trans (hi h ht₂) hl) ht

theorem findValues_sizes (h : (findValues len n a s m).result = some (s', m')) :
    s'.vsize = s.vsize ∧ s'.nvsize = s.nvsize ∧ (s.Ints → s'.Ints) ∧
      newBytes (findValues len n a s m).items = 0 := by
  induction n generalizing a s m
  case zero =>
    cases h
    exact ⟨rfl, rfl, id, rfl⟩
  case succ n hi =>
    obtain ⟨-, -, he⟩ := findValues_succ h
    rw [he] at h ⊢
    obtain ⟨h₁, h₂, h₃, h₄⟩ := hi h
    exact ⟨h₁, h₂, fun hs => h₃ ⟨hs.nvsize, hs.vsize, int_bounds _⟩, h₄⟩

theorem findSets_ints (h : (findSets len n s m).result = some (s', m')) (hs : s.Ints) :
    s'.Ints := by
  induction n generalizing s m
  case zero => cases h; exact hs
  case succ n hi =>
    obtain ⟨-, s₁, m₁, hb, he⟩ := findSets_succ h
    rw [he] at h
    exact hi h <| (findValues_sizes hb).right.right.left hs.addSet

theorem findSets_aligned (h : (findSets len n s m).result = some (s', m'))
    (hs : s.vsize % 4 = 0) : s'.vsize % 4 = 0 := by
  induction n generalizing s m
  case zero => cases h; exact hs
  case succ n ih =>
    obtain ⟨-, s₁, m₁, hb, he⟩ := findSets_succ h
    rw [he] at h
    refine ih h ?_
    rw [(findValues_sizes hb).left, addSet_vsize]
    simp only [setSize, int, Int.bmod_def]
    split <;> split <;> omega

theorem findSets_nvsize (h : (findSets len n s m).result = some (s', m')) (hs : s.Ints) :
    s'.nvsize = int (s.nvsize + newBytes (findSets len n s m).items) := by
  induction n generalizing s m
  case zero =>
    cases h
    simp [findSets, newBytes, int_eq hs.nvsize.left hs.nvsize.right]
  case succ n ih =>
    obtain ⟨-, s₁, m₁, hb, he⟩ := findSets_succ h
    rw [he] at h ⊢
    obtain ⟨-, hn, hi, hz⟩ := findValues_sizes hb
    rw [ih h (hi hs.addSet), hn, addSet_nvsize, int_int_add, newBytes, newBytes_append]
    rw [show newBytes (findBlocks len s m).items = 0 from hz]
    congr 1
    omega

end

section Read

variable {len a : Int} {n : Nat} {s s' : Sums} {m m' m'' : Bytes}

theorem readValue_value (h : valfmt ≠ 0) (hn : 0 ≤ blockAddr m vp) :
    (readValue offset valfmt vp m).val.value = int (blockAddr m vp + offset) := by
  have : ofWord (be32 m (vp + 4)) = be32 m (vp + 4) := by
    have := be32_lt m (vp + 4)
    simp only [blockAddr, ofWord] at *
    omega
  simp [readValue, h, blockAddr, ntohl, this]

-- The second pass finds the values of the first one where nothing has changed.
theorem readValues_visits (h : (findValues len n a s m).result = some (s', m'))
    (ht : Tame len (findValues len n a s m).items) (hb : b ≤ s'.vsplit)
    (hm : ∀ i < b, m'' i = m i) (hn : a + 8 * n ≤ b) (hv : valfmt ≠ 0) :
    ∀ v ∈ (readValues offset valfmt n a m'').val, ∃ vb m₀,
      .block vb m₀ ∈ (findValues len n a s m).items ∧ v.value = int (vb + offset) := by
  induction n generalizing a s m
  case zero => simp [readValues]
  case succ n hi =>
    obtain ⟨h₀, hg, he⟩ := findValues_succ h
    rw [he] at h ht ⊢
    have ht₂ := ht.tail
    have hs := (findValues_pass h ht₂).split_le
    intro v hv'
    simp only [readValues, Prog.bind_val, readValue_mem, Prog.pure_val, mem_cons] at hv'
    cases hv'
    case inl hv' =>
      have ha : blockAddr m'' a = blockAddr m a := by
        rw [blockAddr, blockAddr, be32_congr fun i _ _ => hm i (by omega)]
      refine ⟨blockAddr m a, m, mem_cons_self, ?_⟩
      rw [hv', readValue_value hv (ha ▸ h₀), ha]
    case inr hv' =>
      have hm' i (hi : i < b) : m'' i = swapBlock (blockAddr m a) m i := by
        have := min_le_right s.vsplit (blockAddr m a)
        exact (hm i hi).trans (swapBlock_front (by simp only [Sums.addBlock] at hs; omega)).symm
      obtain ⟨vb, m₀, hl, he⟩ := hi h ht₂ hm' (by omega) v hv'
      exact ⟨vb, m₀, mem_cons_of_mem _ hl, he⟩

theorem SetPasses.vsize (h : SetPasses len s m) (hi : s.Ints) (h₀ : 0 ≤ s.vsize)
    (h₁ : 0 ≤ (s.addSet (setNumval s m)).vsize) :
    (s.addSet (setNumval s m)).vsize = s.vsize + setSize (setNumval s m) := by
  have hv := hi.vsize.right
  have hn := h.right
  have hp := @setSize_pos (setNumval s m)
  have hs : setSize (setNumval s m) < 2147483648 := by
    simp only [setSize, intMax] at *
    split <;> omega
  rw [addSet_vsize] at *
  simp only [int, intMax, Int.bmod_def] at *
  omega

theorem findSets_vsize_nonneg (h : (findSets len n s m).result = some (s', m'))
    (ht : Tame len (findSets len n s m).items) (hs : 0 ≤ s'.vsize) : 0 ≤ s.vsize := by
  cases n
  case zero => cases h; exact hs
  case succ n =>
    obtain ⟨-, _, _, _, he⟩ := findSets_succ h
    rw [he] at ht
    exact (ht.range _ mem_cons_self).left

theorem findSets_second (h : (findSets len (n + 1) s m).result = some (s', m'))
    (ht : Tame len (findSets len (n + 1) s m).items) (hi : s.Ints) (hs : 0 ≤ s'.vsize) :
    ∃ s₁ m₁, (findSets len n s₁ m₁).result = some (s', m') ∧
      Tame len (findSets len n s₁ m₁).items ∧ s₁.Ints ∧
      s₁.vsize = s.vsize + setSize (setNumval s m) := by
  have h₀ := findSets_vsize_nonneg h ht hs
  obtain ⟨hp, s₁, m₁, hb, he⟩ := findSets_succ h
  rw [he] at h ht
  have ht := ht.tail.append.right.left
  obtain ⟨hv, -, hi₁, -⟩ := findValues_sizes hb
  have h₁ := findSets_vsize_nonneg h ht hs
  exact ⟨s₁, m₁, h, ht, hi₁ hi.addSet, hv.trans (hp.vsize hi h₀ (hv ▸ h₁))⟩

theorem findSets_first (h : (findSets len (n + 1) s m).result = some (s', m'))
    (ht : Tame len (findSets len (n + 1) s m).items) (hi : s.Ints) (hs : 0 ≤ s'.vsize) :
    s.vsize + setSize (setNumval s m) ≤ s'.vsize := by
  obtain ⟨s₁, m₁, h₁, ht₁, hi₁, hv⟩ := findSets_second h ht hi hs
  rw [← hv]
  induction n generalizing s m s₁ m₁
  case zero => cases h₁; exact le_rfl
  case succ n ih =>
    obtain ⟨s₂, m₂, h₂, ht₂, hi₂, hv₂⟩ := findSets_second h₁ ht₁ hi₁ hs
    have := ih h₁ ht₁ hi₁ s₂ m₂ h₂ ht₂ hi₂ hv₂
    have := @setSize_pos (setNumval s₁ m₁)
    omega

def newSizes : List NewSet → Int
  | [] => 0
  | t :: ts => newSize t.numval + newSizes ts

theorem readSets_found (offset : Int) (h : (findSets len n s m).result = some (s', m'))
    (ht : Tame len (findSets len n s m).items) (hi : s.Ints) (hs : 0 ≤ s'.vsize)
    (hb : 24 + s'.vsize ≤ s'.vsplit) (hm : ∀ i < s'.vsplit, m'' i = m i) :
    newSizes (readSets offset n s.vsize m'').val = newBytes (findSets len n s m).items ∧
    ∀ t ∈ (readSets offset n s.vsize m'').val, ∀ valfmt ≠ 0, t.valfmt = some valfmt →
      ∀ v ∈ t.vlist, ∃ vb m₀, .block vb m₀ ∈ (findSets len n s m).items ∧
        v.value = int (vb + offset) := by
  induction n generalizing s m
  case zero => exact ⟨rfl, by simp [readSets]⟩
  case succ n ih =>
    have hf := findSets_first h ht hi hs
    have hp := @setSize_pos (setNumval s m)
    obtain ⟨-, s₁, m₁, hk, he⟩ := findSets_succ h
    rw [he] at h ht ⊢
    obtain ⟨ht₁, ht₂, _⟩ := ht.tail.append
    have hk' := findValues_pass hk ht₁
    have hr := findSets_pass h ht₂
    obtain ⟨hv, -, hi₁, hz⟩ := findValues_sizes hk
    have hm' i (hi : i < s'.vsplit) :=
      (hm i hi).trans (hk'.frame i <| hi.trans_le hr.split_le).symm
    obtain ⟨ihn, ihv⟩ := ih h ht₂ (hi₁ hi.addSet) hm'
    rw [readSets_cons fun i _ => hm i (by omega), ← hv]
    constructor
    · rw [newSizes, readVlist_numval, newBytes, newBytes_append, ihn]
      rw [show newBytes (findBlocks len s m).items = 0 from hz, zero_add]
    · intro t hmem valfmt hv hvf v hvl
      cases mem_cons.mp hmem
      case inl hmem =>
        obtain rfl := hmem
        obtain ⟨hn, hvf, hvl'⟩ := readVlist_values hvf
        rw [setSize] at hf
        have hvf : valfmt = setValfmt s m := by
          rw [hvf, setValfmt, be32_congr fun i _ _ => hm i (by omega)]
        have hc : blockCount (setNumval s m) (setValfmt s m) = (setNumval s m).toNat := by
          rw [blockCount, if_neg]
          rintro (h | h)
          · exact absurd hn (not_lt.mpr h)
          · exact hv (hvf.trans h)
        rw [findBlocks, hc] at hk ht₁ ⊢
        obtain ⟨vb, m₀, hl, he⟩ :=
          readValues_visits hk ht₁ hr.split_le hm (by omega) hv v (hvl' ▸ hvl)
        exact ⟨vb, m₀, mem_cons_of_mem _ <| mem_append_left _ hl, he⟩
      case inr hmem =>
        obtain ⟨vb, m₀, hl, he⟩ := ihv t hmem valfmt hv hvf v hvl
        exact ⟨vb, m₀, mem_cons_of_mem _ <| mem_append_right _ hl, he⟩

end Read

theorem copyBlocks_val (h : s.vbsize ≠ 0) : (copyBlocks newbuf s m).val =
    copy newbuf s.nvsize m (24 + 4 * (s.vsize / 4)) s.vbsize.toNat := by
  simp [copyBlocks, h]

theorem Pass.hdrLenOf (h : Pass len m m' s s' l) : hdrLenOf m' = hdrLenOf m := by
  simp only [PduResult.hdrLenOf, le32]
  rw [h.header 0 (by simp), h.header (0 + 1) (by simp), h.header (0 + 2) (by simp),
    h.header (0 + 3) (by simp)]

theorem Sums.Accepted.sizes {s : Sums} (h : s.Accepted len len) (hi : s.Ints) :
    0 ≤ s.vsize ∧ 0 ≤ s.vbsize ∧ s.vsize ≤ 536870911 ∧ 24 + s.vsize = s.vsplit ∧
    24 + s.vsize + s.vbsize = len ∧ (0 ≤ s.nvsize → s.nvsize + s.vbsize ≤ 2147483647) := by
  obtain ⟨hn, hv, hb, he, hl⟩ := h
  obtain ⟨hni, hvi, hbi⟩ := hi
  simp only [size, intMax] at *
  have h₀ : int (24 + s.vsize) = 24 + s.vsize :=
    int_eq (by omega) (by simp only [intMax]; omega)
  rw [int_eq (by omega) (by simp only [intMax]; omega)] at hl
  simp only [int, Int.bmod_def] at hn
  omega

theorem vlen_copy {v : Int} {n : Nat} (hl : a ≤ v) (hu : v + 3 ≤ a + n) :
    vlen (copy m a src b n) v = vlen src (b + (v - a)) := by
  have h (k : Int) (h₀ : 0 ≤ k) (h₂ : k ≤ 2) :
      copy m a src b n (v + k) = src (b + (v - a) + k) := by
    rw [copy, if_pos (by omega)]
    congr 1
    omega
  have h₀ := h 0
  have h₁ := h 1
  have h₂ := h 2
  simp only [vlen]
  simp at h₀ h₁ h₂
  rw [h₀, h₁, h₂]

theorem block_value (hl : 24 + vsize ≤ vb) (hu : vb ≤ 24 + vsize + vbsize) (h₀ : 0 ≤ nvsize)
    (hv : 0 ≤ vsize) (hs : nvsize + vbsize ≤ 2147483647) (hs' : vsize ≤ 536870911) :
    int (vb + int (nvsize - vsize - 24)) = nvsize + (vb - (24 + vsize)) := by
  rw [int_eq (n := nvsize - vsize - 24) (by omega) (by simp only [intMax]; omega)]
  rw [int_eq (by omega) (by simp only [intMax]; omega)]
  omega

theorem findSets_blocks (hl : hdrLenOf m = len)
    (hs : (findSets len n ⟨0, 0, 0, len⟩ m).result = some (s, m'))
    (ht : Tame len (findSets len n ⟨0, 0, 0, len⟩ m).items)
    (hn : newBytes (findSets len n ⟨0, 0, 0, len⟩ m).items ≤ intMax)
    (ha : s.Accepted len (hdrLenOf m'))
    (hr : (readSets (int (s.nvsize - s.vsize - 24)) n 0 m').val = ts) :
    ∀ t ∈ ts, ∀ valfmt ≠ 0, t.valfmt = some valfmt → ∀ v ∈ t.vlist,
      let newbuf := (copyBlocks newbuf s m').val
      newSizes ts ≤ v.value ∧ 4 ≤ vlen newbuf v.value ∧
      v.value + vlen newbuf v.value ≤ newSizes ts + s.vbsize := by
  have hp := findSets_pass hs ht
  have hz : (⟨0, 0, 0, len⟩ : Sums).Ints := by constructor <;> simp [intMax]
  have hd := findSets_aligned hs rfl
  rw [hp.hdrLenOf, hl] at ha
  obtain ⟨h₁, h₂, h₃, h₄, h₅, h₆⟩ := ha.sizes (findSets_ints hs hz)
  let offset := int (s.nvsize - s.vsize - 24)
  have hnv := findSets_nvsize hs hz
  obtain ⟨hsz, hvs⟩ := readSets_found offset hs ht hz h₁ h₄.le hp.frame
  rw [hr] at hsz hvs
  rw [zero_add, int_eq (newBytes_nonneg.trans' (by simp)) hn] at hnv
  intro t hmem valfmt hvf htv v hvl newbuf
  obtain ⟨vb, m₀, hb, hval⟩ := hvs t hmem valfmt hvf htv v hvl
  have hsp := hp.split vb m₀ hb
  obtain ⟨hg₁, hg₂⟩ := hp.good vb m₀ hb
  have h₀ : 0 ≤ s.nvsize := hnv ▸ newBytes_nonneg
  rw [block_value (by omega) (by omega) h₀ h₁ (h₆ h₀) h₃] at hval
  have hc : vlen newbuf v.value = vlen m' vb := by
    rw [show newbuf = _ from copyBlocks_val (by omega), vlen_copy (by omega) (by omega)]
    congr 1
    omega
  omega

theorem findAll_result (ht : Tame (hdrLenOf m) (findAll m).items)
    (h : (checkAll m m).val = some s) : (findAll m).result = some (s, (checkAll m m).mem) := by
  have hag : Agrees (checkAll m m) (findAll m).result :=
    checkSets_agrees (hdrLenOf_bounds m).right (by constructor <;> simp [intMax])
      fun i hi => (ht.range i hi).inside
  cases hf : (findAll m).result
  case none =>
    rw [hf] at hag
    cases h.symm.trans hag
  case some r =>
    rw [hf] at hag
    obtain rfl := some.inj (hag.left.symm.trans h)
    rw [hag.right]

-- The blocks of an accepted result lie behind the value sets in the new buffer.
-- The blocks of the values are in the part of the new buffer that is for them.
def Decoded.BlocksWithin (d : Decoded) : Prop :=
  ∀ t ∈ d.vset, ∀ valfmt ≠ 0, t.valfmt = some valfmt → ∀ v ∈ t.vlist,
    newSizes d.vset ≤ v.value ∧ 4 ≤ vlen d.newbuf v.value ∧
    v.value + vlen d.newbuf v.value ≤ newSizes d.vset + d.vbsize

theorem decodeResult_blocks (newbuf m : Bytes) (d : Decoded)
    (h : (decodeResult newbuf m).val = some d) (ht : Tame (hdrLenOf m) (findAll m).items)
    (hn : newBytes (findAll m).items ≤ CInt.intMax) : d.BlocksWithin := by
  rw [decodeResult_eq (decodeResult_some h)] at h
  obtain ⟨s, hs⟩ := decodeBody_some h
  have hf := findAll_result ht hs
  generalize hm : (checkAll m m).mem = m' at hf
  replace h : (decodeSums newbuf (hdrLenOf m) (numpmidOf m) (be32 m 12) (be32 m 16) s m').val =
      some d := by
    rw [← hm, ← h, decodeBody_eq hs]
  obtain ⟨ha, rfl⟩ := decodeSums_some h
  exact findSets_blocks rfl hf ht hn ha rfl

def blockPdu : Bytes :=
  write (fun _ => 0) 0 <| le 52 ++ le 0x7001 ++ le 0 ++ be 1 ++ be 0 ++ be 1 ++
    be 60 ++ be 1 ++ be 1 ++ be 7 ++ be 11 ++ [PmType.aggregate, 0, 0, 8, 1, 2, 3, 4]

def Decoded.blocks (d : Decoded) : List Int :=
  d.vset.flatMap fun t => if t.valfmt = some 0 then [] else t.vlist.map (·.value)

theorem decodeResult_blocks_one :
    (decodeResult (fun _ => 0) blockPdu).val.map Decoded.blocks = some [32] ∧
    Tame (hdrLenOf blockPdu) (findAll blockPdu).items ∧
    newBytes (findAll blockPdu).items ≤ CInt.intMax ∧
    ∀ d, (decodeResult (fun _ => 0) blockPdu).val = some d → d.BlocksWithin := by
  have ht : Tame (hdrLenOf blockPdu) (findAll blockPdu).items := by decide +kernel
  have hn : newBytes (findAll blockPdu).items ≤ intMax := by decide +kernel
  exact ⟨by decide +kernel, ht, hn, fun d hd => decodeResult_blocks _ _ d hd ht hn⟩

-- A PDU whose second block starts four bytes before the first one, and has a 64-bit value.
def overlapPdu : Bytes :=
  write (fun _ => 0) 0 <| le 72 ++ le 0x7001 ++ le 0 ++ be 1 ++ be 0 ++ be 1 ++
    be 60 ++ be 2 ++ be 1 ++ be 7 ++ be 14 ++ be 8 ++ be 13 ++
    [PmType.u64, 0, 0, 12, PmType.aggregate, 0, 0, 8]

-- The PDU is accepted, but the byte swap of the second block replaces the length of the first.
theorem decodeResult_overlap :
    (decodeResult (fun _ => 0) overlapPdu).val.map (fun d => d.blocks.map (vlen d.newbuf)) =
      some [0, 12] := by
  decide +kernel

end PduResult
