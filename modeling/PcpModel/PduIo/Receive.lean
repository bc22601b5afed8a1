import PcpModel.PduIo.Buffers

-- What is received depends only on the bytes that arrive and on the fault that follows them.
namespace PduIo

open Memory PduBuf Stream List Option Nat Pcp

def image (l : List UInt8) : Bytes :=
  fun i => l.getD i.toNat 0

def word (l : List UInt8) : Int :=
  CInt.ofWord (be32 (image l) 0)

-- The header is in host byte order.
def ofWire (l : List UInt8) : List UInt8 :=
  (l.take 4).reverse ++ ((l.drop 4).take 4).reverse ++ ((l.drop 8).take 4).reverse ++ l.drop 12

inductive Answer
  | status (sts : Int)
  | pdu (type : Int) (len : Nat)

def answer (timeout : Int) (limit : Option Int) (d : List UInt8) (fault : Option Fault) : Answer :=
  if timeout = timeoutAsync then
    .status pmErrIpc
  else if 12 ≤ d.length ∨ (fault = none ∧ 4 ≤ d.length) then
    if word d < 12 then
      .status pmErrIpc
    else if limit.any (· < word d) then
      .status pmErrToobig
    else if d.length < word d then
      .status (if fault = some .timeout then pmErrTimeout else pmErrIpc)
    else if word (d.drop 4) < 0 then
      .status pmErrIpc
    else
      .pdu (word (d.drop 4)) (word d).toNat
  else
    match fault with
    | some .timeout => .status pmErrTimeout
    | some .error => .status 0
    | none => .status (if d = [] then 0 else pmErrIpc)

def Fails (rd : Reader) (sts : Int) (g : Got) : Prop :=
  g.sts = sts ∧ g.pdu = none ∧ Takes rd g.reader []

def Delivers (rd : Reader) (l : List UInt8) (g : Got) : Prop :=
  ∃ r, g.pdu = some (g.reader.pool.ctl.mem r).buf ∧ Takes rd g.reader [r] ∧
    l.length ≤ (g.reader.pool.ctl.mem r).size ∧
    Holds g.reader.mem (g.reader.pool.ctl.mem r).buf (ofWire l)

def Answers (rd : Reader) (input : Input) (g : Got) : Answer → Prop
  | .status sts => Fails rd sts g
  | .pdu type len => g.sts = type ∧ Delivers rd ((ready input).take len) g ∧
      ready g.input = (ready input).drop len ∧ rest g.input = rest input

section Words

variable {m : Bytes}

theorem be32_image (h : Holds m a l) (hl : 4 ≤ l.length) : be32 m a = be32 (image l) 0 := by
  have hi : ∀ i < 4, m (a + (i : Nat)) = image l i := by
    intro i hi
    have hlt : i < l.length := by omega
    rw [h i hlt]
    simp [image, hlt]
  have h₀ := hi 0 (by decide)
  have h₁ := hi 1 (by decide)
  have h₂ := hi 2 (by decide)
  have h₃ := hi 3 (by decide)
  simp_all [be32]

theorem loadInt_rev : loadInt (rev m a 4) a = CInt.ofWord (be32 m a) := by
  have h : ∀ i : Nat, i < 4 → rev m a 4 (a + i) = m (a + (3 - i)) := by
    intro i hi
    rw [rev, if_pos (by omega)]
    congr 1
    omega
  have h₀ := h 0 (by decide)
  have h₁ := h 1 (by decide)
  have h₂ := h 2 (by decide)
  have h₃ := h 3 (by decide)
  simp_all [loadInt, le32, be32]

theorem bytesAt_holds (h : Holds m a l) : bytesAt m a l.length = l := by
  refine ext_getElem (by simp [bytesAt]) fun i h₁ h₂ => ?_
  simp [bytesAt, h i h₂]

theorem image_holds : Holds (image (l ++ l')) 0 l := by
  intro i hi
  simp [image, getElem?_append_left hi, hi]

theorem word_append (h : 4 ≤ l.length) : word (l ++ l') = word l := by
  rw [word, be32_image image_holds h]
  rfl

theorem drop_four (l : List UInt8) :
    l.drop 4 = (l.drop 4).take 4 ++ ((l.drop 8).take 4 ++ l.drop 12) := by
  rw [← drop_drop (i := 4) (j := 8), take_append_drop, ← drop_drop (i := 4) (j := 4),
    take_append_drop]

theorem swap_holds (hl : 4 ≤ l.length) (h : Holds m a l) :
    Holds (rev m a 4) a ((l.take 4).reverse ++ l.drop 4) := by
  have h₄ : (l.take 4).length = 4 := by simp; omega
  rw [← take_append_drop 4 l, Holds.append, h₄] at h
  rw [Holds.append, length_reverse, h₄]
  exact ⟨by simpa only [h₄] using h.left.rev, h.right.beside_rev (.inr (by simp))⟩

-- The first word has been swapped before the others are.
theorem ofWire_holds (hl : 12 ≤ l.length) (h : Holds m a ((l.take 4).reverse ++ l.drop 4)) :
    Holds (rev (rev m (a + 4) 4) (a + 8) 4) a (ofWire l) := by
  have h₁ : (l.take 4).reverse.length = 4 := by simp; omega
  have h₂ : ((l.drop 4).take 4).length = 4 := by simp; omega
  have h₃ : ((l.drop 8).take 4).length = 4 := by simp; omega
  rw [drop_four, Holds.append, Holds.append, Holds.append, h₁, h₂, h₃] at h
  obtain ⟨hw₁, hw₂, hw₃, hb⟩ := h
  have e₁ : a + 4 + 4 = a + 8 := by omega
  have e₂ : a + 8 + 4 = a + 12 := by omega
  simp only [cast_ofNat, e₁, e₂] at hw₂ hw₃ hb
  have hr₂ : Holds (rev m (a + 4) 4) (a + 4) ((l.drop 4).take 4).reverse := by
    simpa only [h₂] using hw₂.rev
  have hw₃' : Holds (rev m (a + 4) 4) (a + 8) ((l.drop 8).take 4) :=
    hw₃.beside_rev (.inr (by omega))
  have hr₃ : Holds (rev (rev m (a + 4) 4) (a + 8) 4) (a + 8) ((l.drop 8).take 4).reverse := by
    simpa only [h₃] using hw₃'.rev
  simp only [ofWire, Holds.append, length_append, length_reverse, h₁, h₂, h₃]
  refine ⟨⟨⟨?_, ?_⟩, hr₃⟩, ?_⟩
  · refine (hw₁.beside_rev (.inl ?_)).beside_rev (.inl ?_) <;> simp only [h₁] <;> omega
  · refine hr₂.beside_rev (.inl ?_)
    simp only [length_reverse]
    omega
  · exact (hb.beside_rev (.inr (by omega))).beside_rev (.inr (by omega))

end Words

namespace Reader

variable {al : Allocator} {rd rd₁ : Reader}

theorem finish_eq (input : Input) (t : Takes rd rd₁ [r]) (hl : 12 ≤ l.length)
    (hs : l.length ≤ (rd₁.pool.ctl.mem r).size)
    (hm : Holds rd₁.mem (rd₁.pool.ctl.mem r).buf ((l.take 4).reverse ++ l.drop 4)) :
    ∃ g, rd₁.finish (rd₁.pool.ctl.mem r).buf input = some g ∧ g.reader.maxsize = rd₁.maxsize ∧
      if word (l.drop 4) < 0 then Fails rd pmErrIpc g
      else g.sts = word (l.drop 4) ∧ Delivers rd l g ∧ g.input = input := by
  obtain ⟨fs, ps, hsound⟩ := t.sound
  have hend := hsound.geometry.bufend r (t.lt_nctl r (.head _))
  have t₁ : Takes rd (rd₁.swap ((rd₁.pool.ctl.mem r).buf + 4)) [r] :=
    swap_takes t (.head _) (by omega) (by omega)
  have t₂ : Takes rd ((rd₁.swap ((rd₁.pool.ctl.mem r).buf + 4)).swap ((rd₁.pool.ctl.mem r).buf + 8))
      [r] :=
    swap_takes t₁ (.head _) (show (rd₁.pool.ctl.mem r).buf ≤ _ by omega)
      (show _ ≤ (rd₁.pool.ctl.mem r).bufend by omega)
  have hw : loadInt (rd₁.swap ((rd₁.pool.ctl.mem r).buf + 4)).mem ((rd₁.pool.ctl.mem r).buf + 4) =
      word (l.drop 4) := by
    have h₁ : (l.take 4).reverse.length = 4 := by simp; omega
    rw [Holds.append, h₁] at hm
    exact loadInt_rev.trans <| congrArg _ <| be32_image hm.right (by simp; omega)
  simp only [finish, hw]
  split
  case isTrue =>
    obtain ⟨rd₂, hf, t', hm⟩ := fail_eq pmErrIpc input t₁
    exact ⟨_, congrArg (Option.map _) hf, hm, rfl, rfl, t'⟩
  case isFalse hneg =>
    exact ⟨_, rfl, rfl, rfl, ⟨r, if_neg hneg, t₂, hs, ofWire_holds hl hm⟩, rfl⟩

theorem fail_fails (sts : Int) (input : Input) (t : Takes rd rd₁ [r]) :
    ∃ g, rd₁.fail (rd₁.pool.ctl.mem r).buf sts input = some g ∧ g.reader.maxsize = rd₁.maxsize ∧
      Fails rd sts g := by
  obtain ⟨rd₂, hf, t', hm⟩ := fail_eq sts input t
  exact ⟨_, hf, hm, rfl, ite_self _, t'⟩

end Reader

section Read

variable {timeout : Int} {input : Input}

theorem pduread_ready (ht : timeout ≠ timeoutAsync) (h : n ≤ (ready input).length) :
    let r := pduread timeout input n
    r.sts = n ∧ r.got = (ready input).take n ∧ ready r.input = (ready input).drop n ∧
      rest r.input = rest input := by
  obtain ⟨hg, hf, hr, hs⟩ := receive_ready h
  simp [pduread, ht, hg, hf, hr, hs, h]

theorem pduread_short (ht : timeout ≠ timeoutAsync) (h : (ready input).length < n) :
    let r := pduread timeout input n
    r.sts = (headFault (rest input)).elim ((ready input).length : Int) Fault.status ∧
      r.got = ready input ∧ r.input = (rest input).tail := by
  obtain ⟨hg, hf, hr⟩ := receive_short h
  cases he : headFault (rest input) <;> simp [pduread, ht, hg, hf, hr, he]

end Read

namespace Reader

variable {al : Allocator} {rd rd₁ : Reader}

variable {l : List UInt8} {plen : Nat}

def Rest (rd : Reader) (l : List UInt8) (plen : Nat) (input : Input) (g : Got) : Prop :=
  let n := plen - l.length
  if n ≤ (ready input).length then
    let l' := l ++ (ready input).take n
    if word (l'.drop 4) < 0 then Fails rd pmErrIpc g
    else g.sts = word (l'.drop 4) ∧ Delivers rd l' g ∧ ready g.input = (ready input).drop n ∧
      rest g.input = rest input
  else
    Fails rd (if headFault (rest input) = some .timeout then pmErrTimeout else pmErrIpc) g

theorem readRest_eq (input : Input) (t : Takes rd rd₁ [r]) (ht : timeout ≠ timeoutAsync)
    (h12 : 12 ≤ plen)
    (hs : plen ≤ (rd₁.pool.ctl.mem r).size) (hl : 4 ≤ l.length) (hlt : l.length < plen)
    (hm : Holds rd₁.mem (rd₁.pool.ctl.mem r).buf ((l.take 4).reverse ++ l.drop 4)) :
    ∃ g, rd₁.readRest timeout (rd₁.pool.ctl.mem r).buf l.length plen input = some g ∧
      g.reader.maxsize = rd₁.maxsize ∧ Rest rd l plen input g := by
  obtain ⟨fs, ps, hsound⟩ := t.sound
  have hend := hsound.geometry.bufend r (t.lt_nctl r (.head _))
  have he : (plen : Int) - l.length = (plen - l.length : Nat) := by omega
  have hlen : ((l.take 4).reverse ++ l.drop 4).length = l.length := by simp; omega
  simp only [readRest, Rest, he]
  by_cases hn : plen - l.length ≤ (ready input).length
  · obtain ⟨hsts, hg, hi, hr⟩ := pduread_ready ht hn
    generalize pduread timeout input (plen - l.length : Nat) = rd' at hsts hg hi hr
    have hgl : rd'.got.length = plen - l.length := by simp [hg, hn]
    obtain ⟨hst, t₁⟩ := store_eq t (.head _) (show _ ≤ (rd₁.pool.ctl.mem r).buf + l.length by omega)
      (show _ + (rd'.got.length : Int) ≤ _ by omega)
    have hm₁ : Holds (write rd₁.mem ((rd₁.pool.ctl.mem r).buf + l.length) rd'.got)
        (rd₁.pool.ctl.mem r).buf (((l ++ rd'.got).take 4).reverse ++ (l ++ rd'.got).drop 4) := by
      rw [take_append_of_le_length hl, drop_append_of_le_length hl, ← append_assoc,
        Holds.append, hlen]
      exact ⟨hm.beside_write (.inl (by omega)), .write⟩
    obtain ⟨g, hg', hgm, hgf⟩ := finish_eq rd'.input t₁
      (show 12 ≤ (l ++ rd'.got).length by simp; omega)
      (show ((l ++ rd'.got).length : Int) ≤ (rd₁.pool.ctl.mem r).size by simp; omega) hm₁
    refine ⟨g, by simpa [hst, hsts] using hg', hgm, ?_⟩
    simp only [hn, if_true, ← hg]
    split
    case isTrue h => simpa only [h, if_true] using hgf
    case isFalse h =>
      simp only [h] at hgf
      obtain ⟨hgs, hgd, hgi⟩ := hgf
      exact ⟨hgs, hgd, hgi ▸ hi, hgi ▸ hr⟩
  · obtain ⟨hsts, hg, hi⟩ := pduread_short ht (Nat.lt_of_not_le hn)
    generalize pduread timeout input (plen - l.length : Nat) = rd' at hsts hg hi
    obtain ⟨hst, t₁⟩ := store_eq t (.head _) (show _ ≤ (rd₁.pool.ctl.mem r).buf + l.length by omega)
      (show _ + (rd'.got.length : Int) ≤ _ by rw [hg]; omega)
    have hne : rd'.sts ≠ (plen - l.length : Nat) ∧
        (rd'.sts = pmErrTimeout ↔ headFault (rest input) = some .timeout) := by
      rw [hsts]
      rcases headFault (rest input) with _ | _ | _ <;> simp [Fault.status, pmErrTimeout]
      omega
    obtain ⟨g, hg', hgm, hgf⟩ := fail_fails
      (if rd'.sts = pmErrTimeout then pmErrTimeout else pmErrIpc) rd'.input t₁
    refine ⟨g, by simpa [hst, hne.left] using hg', hgm, ?_⟩
    simpa only [hn, if_false, hne.right] using hgf

theorem readBody_eq (t : Takes rd rd₁ [r]) (ht : timeout ≠ timeoutAsync)
    (hlo : 1024 ≤ rd₁.maxsize) (hup : rd₁.maxsize ≤ 2147481600) (h12 : 12 ≤ plen)
    (hp : plen < 2147481600) (hl : 4 ≤ l.length) (hlt : l.length < plen)
    (hm : Holds rd₁.mem (rd₁.pool.ctl.mem r).buf ((l.take 4).reverse ++ l.drop 4)) :
    ∃ g, rd₁.readBody al timeout (rd₁.pool.ctl.mem r).buf l.length plen input = some g ∧
      1024 ≤ g.reader.maxsize ∧ g.reader.maxsize ≤ 2147481600 ∧
      (Fails rd (-enomem) g ∧ ¬al.Plenty ∨ Rest rd l plen input g) := by
  have hn : ∃ n, (if (plen : Int) > rd₁.maxsize then newSize plen else rd₁.maxsize) = n ∧
      1024 ≤ n ∧ n ≤ 2147481600 ∧ plen ≤ n := by
    split
    · refine ⟨_, rfl, ?_⟩
      rw [newSize_eq (by omega) (by omega)]
      omega
    · exact ⟨_, rfl, hlo, hup, by omega⟩
  obtain ⟨n, hn, hlo, hup, hpn⟩ := hn
  have t₁ : Takes rd { rd₁ with maxsize := n } [r] := { t with }
  simp only [readBody, hn]
  rcases findPDUBuf_eq al t₁ (by omega) hup with ⟨hf, ha⟩ | ⟨pool, r₂, hf, hfound, hsz⟩
  case inl =>
    obtain ⟨g, hg, hgm, hgf⟩ := fail_fails (-enomem) input t₁
    refine ⟨g, by simpa [hf] using hg, ?_, ?_, .inl ⟨hgf, ha⟩⟩ <;> rw [hgm] <;> assumption
  case inr =>
    -- The header is moved, and the buffer `r` is not needed any more.
    have t₂ : Takes rd { pool, mem := rd₁.mem, maxsize := n } [r₂, r] := t₁.find hfound
    have hne : r₂ ≠ r := fun he => t₁.notMem_of_found hfound (he ▸ .head _)
    have hr : pool.ctl.mem r = rd₁.pool.ctl.mem r := hfound.mem r (t.lt_nctl r (.head _))
    obtain ⟨fs, ps, hsound⟩ := hfound.sound
    have hend := hsound.geometry.bufend r₂ hfound.lt_nctl
    have hlen : ((l.take 4).reverse ++ l.drop 4).length = l.length := by simp; omega
    have hb : bytesAt rd₁.mem (rd₁.pool.ctl.mem r).buf (l.length : Int).toNat =
        (l.take 4).reverse ++ l.drop 4 := by
      rw [← hlen]
      exact bytesAt_holds hm
    obtain ⟨hst, t₃⟩ := store_eq t₂ (.head _) (Int.le_refl (pool.ctl.mem r₂).buf)
      (show _ + (((l.take 4).reverse ++ l.drop 4).length : Int) ≤ (pool.ctl.mem r₂).bufend by
        rw [hlen]; omega)
    obtain ⟨rd₄, hu, t₄, hmem, hmax, harea, _⟩ := t₃.unpin (.tail _ (.head _))
    have hfilter : [r₂, r].filter (· ≠ r) = [r₂] := by simp [hne]
    rw [hfilter] at t₄
    have hm₄ : Holds rd₄.mem (rd₄.pool.ctl.mem r₂).buf ((l.take 4).reverse ++ l.drop 4) := by
      rw [hmem, harea]
      exact .write
    have hs₄ : plen ≤ (rd₄.pool.ctl.mem r₂).size := by
      rw [harea]
      exact hpn.trans hsz
    obtain ⟨g, hg, hgm, hgr⟩ := readRest_eq input t₄ ht h12 hs₄ hl hlt hm₄
    refine ⟨g, ?_, hgm ▸ hmax ▸ hlo, hgm ▸ hmax ▸ hup, .inr hgr⟩
    rw [harea] at hg
    rw [← hr] at hb ⊢
    simp only [hf, hb, hst, bind_eq_bind, bind_some]
    simp only [hu]
    exact hg

theorem checkLen_eq (input : Input) (t : Takes rd rd₁ [r]) (ht : timeout ≠ timeoutAsync)
    (hlo : 1024 ≤ rd₁.maxsize) (hup : rd₁.maxsize ≤ 2147481600)
    (hn : word l < 2147481600 ∨ limit.any (· < word l)) (hl : 4 ≤ l.length) (hl' : l.length ≤ 12)
    (hs : 1024 ≤ (rd₁.pool.ctl.mem r).size) (hm : Holds rd₁.mem (rd₁.pool.ctl.mem r).buf l) :
    ∃ g, rd₁.checkLen al timeout limit (rd₁.pool.ctl.mem r).buf l.length input = some g ∧
      1024 ≤ g.reader.maxsize ∧ g.reader.maxsize ≤ 2147481600 ∧
      (Fails rd (-enomem) g ∧ ¬al.Plenty ∨
        if word l < 12 then Fails rd pmErrIpc g
        else if limit.any (· < word l) then Fails rd pmErrToobig g
        else Rest rd l (word l).toNat input g) := by
  obtain ⟨fs, ps, hsound⟩ := t.sound
  have hend := hsound.geometry.bufend r (t.lt_nctl r (.head _))
  have t₁ : Takes rd (rd₁.swap (rd₁.pool.ctl.mem r).buf) [r] :=
    swap_takes t (.head _) (Int.le_refl _) (by omega)
  have hw : loadInt (rd₁.swap (rd₁.pool.ctl.mem r).buf).mem (rd₁.pool.ctl.mem r).buf = word l :=
    loadInt_rev.trans <| congrArg _ <| be32_image hm hl
  have hm₁ : Holds (rd₁.swap (rd₁.pool.ctl.mem r).buf).mem (rd₁.pool.ctl.mem r).buf
      ((l.take 4).reverse ++ l.drop 4) := swap_holds hl hm
  simp only [checkLen, hw]
  split
  case isTrue =>
    obtain ⟨g, hg, hgm, hgf⟩ := fail_fails pmErrIpc input t₁
    exact ⟨g, hg, hgm ▸ hlo, hgm ▸ hup, .inr hgf⟩
  case isFalse h12 =>
    split
    case isTrue =>
      obtain ⟨g, hg, hgm, hgf⟩ := fail_fails pmErrToobig input t₁
      exact ⟨g, hg, hgm ▸ hlo, hgm ▸ hup, .inr hgf⟩
    case isFalse hlim =>
      have hp : word l < 2147481600 := hn.resolve_right hlim
      obtain ⟨plen, hplen⟩ := Int.eq_ofNat_of_zero_le (show 0 ≤ word l by omega)
      rw [hplen] at h12 hp ⊢
      split
      case isTrue hlt => exact readBody_eq t₁ ht hlo hup (by omega) (by omega) hl (by omega) hm₁
      case isFalse hge =>
        obtain ⟨g, hg, hgm, hgf⟩ := finish_eq input t₁ (by omega)
          (show (l.length : Int) ≤ (rd₁.pool.ctl.mem r).size by omega) hm₁
        refine ⟨g, hg, hgm ▸ hlo, hgm ▸ hup, .inr ?_⟩
        have h₀ : plen - l.length = 0 := by omega
        simp only [Rest, Int.toNat_natCast, h₀, zero_le, if_true, take_zero,
          append_nil]
        split
        case isTrue h => simpa only [h, if_true] using hgf
        case isFalse h =>
          simp only [h] at hgf
          obtain ⟨hgs, hgd, hgi⟩ := hgf
          exact ⟨hgs, hgd, hgi ▸ rfl, hgi ▸ rfl⟩

theorem Rest.answers (h : Rest rd l (word d).toNat input' g) (ht : timeout ≠ timeoutAsync)
    (hd : ready input = d) (hl : l ++ ready input' = d) (hr : rest input' = rest input)
    (hl' : l.length ≤ 12) (h12 : ¬word d < 12) (hlim : ¬limit.any (· < word d))
    (hc : 12 ≤ d.length ∨ headFault (rest input) = none ∧ 4 ≤ d.length) :
    Answers rd input g (answer timeout limit d (headFault (rest input))) := by
  obtain ⟨plen, hplen⟩ := Int.eq_ofNat_of_zero_le (show 0 ≤ word d by omega)
  simp only [hplen, Int.toNat_natCast] at h h12 hlim
  simp only [answer, ht, hc, hplen, h12, hlim,
    Bool.false_eq_true]
  have hlen : d.length = l.length + (ready input').length := by simp [← hl]
  have htake : l ++ (ready input').take (plen - l.length) = d.take plen := by
    rw [← hl, take_append, take_of_length_le (show l.length ≤ plen by omega)]
  have hdrop : (ready input').drop (plen - l.length) = d.drop plen := by
    rw [← hl, drop_append, drop_of_length_le (show l.length ≤ plen by omega), nil_append]
  simp only [Rest, htake, hdrop, hr] at h
  by_cases hle : plen ≤ d.length
  · have hn : plen - l.length ≤ (ready input').length := by omega
    have hlt : ¬(d.length : Int) < plen := by omega
    have hw : word ((d.take plen).drop 4) = word (d.drop 4) := by
      rw [← take_append_drop plen d, drop_append_of_le_length (by simp; omega), word_append]
      · simp
      · simp
        omega
    simp only [hn, hlt, if_true, if_false, hw] at h ⊢
    split
    case isTrue hneg =>
      simp only [hneg] at h
      exact h
    case isFalse hneg =>
      simp only [hneg] at h
      subst hd
      exact h
  · have hn : ¬plen - l.length ≤ (ready input').length := by omega
    have hlt : (d.length : Int) < plen := by omega
    simp only [hn, hlt, if_true] at h ⊢
    exact h

-- The length has arrived as far as `__pmGetPDU` looks at it.
def Begun (d : List UInt8) (fault : Option Fault) : Prop :=
  12 ≤ d.length ∨ fault = none ∧ 4 ≤ d.length

-- The size of a buffer for the next PDU is an `int`, unless the PDU is refused.
def Sized (limit : Option Int) (d : List UInt8) (fault : Option Fault) : Prop :=
  Begun d fault → word d < 2147481600 ∨ limit.any (· < word d)

-- The answer to what has been read so far, unless there is no more memory.
structure Replies (al : Allocator) (rd : Reader) (input : Input) (ans : Answer) (g : Got) :
    Prop where
  lower : 1024 ≤ g.reader.maxsize
  upper : g.reader.maxsize ≤ 2147481600
  reply : Fails rd (-enomem) g ∧ ¬al.Plenty ∨ Answers rd input g ans

section Header

variable (al : Allocator) {rd rd₁ : Reader} {l : List UInt8} {input input' : Input}
  (t : Takes rd rd₁ [r]) (hlo : 1024 ≤ rd₁.maxsize) (hup : rd₁.maxsize ≤ 2147481600)
include t hlo hup

theorem fail_replies (sts : Int) (input input' : Input) :
    ∃ g, rd₁.fail (rd₁.pool.ctl.mem r).buf sts input' = some g ∧
      Replies al rd input (.status sts) g := by
  obtain ⟨g, hg, hgm, hgf⟩ := fail_fails sts input' t
  exact ⟨g, hg, hgm ▸ hlo, hgm ▸ hup, .inr hgf⟩

theorem checkLen_replies (ht : timeout ≠ timeoutAsync)
    (hn : word (ready input) < 2147481600 ∨ limit.any (· < word (ready input)))
    (hl : 4 ≤ l.length) (hl' : l.length ≤ 12) (hd : l ++ ready input' = ready input)
    (hr : rest input' = rest input)
    (hc : 12 ≤ (ready input).length ∨ headFault (rest input) = none ∧ 4 ≤ (ready input).length)
    (hs : 1024 ≤ (rd₁.pool.ctl.mem r).size) (hm : Holds rd₁.mem (rd₁.pool.ctl.mem r).buf l) :
    ∃ g, rd₁.checkLen al timeout limit (rd₁.pool.ctl.mem r).buf l.length input' = some g ∧
      Replies al rd input (answer timeout limit (ready input) (headFault (rest input))) g := by
  have hw : word l = word (ready input) := hd ▸ (word_append hl).symm
  obtain ⟨g, hg, hglo, hgup, hgr⟩ := checkLen_eq input' t ht hlo hup (hw ▸ hn) hl hl' hs hm
  refine ⟨g, hg, hglo, hgup, hgr.imp_right fun h => ?_⟩
  rw [hw] at h
  split at h
  case isTrue h12 => simpa only [answer, Answers, ht, hc, h12, if_true, if_false] using h
  case isFalse h12 =>
    split at h
    case isTrue hlim => simpa only [answer, Answers, ht, hc, h12, hlim, if_true, if_false] using h
    case isFalse hlim => exact h.answers ht rfl hd hr hl' h12 hlim hc

variable (hs : 1024 ≤ (rd₁.pool.ctl.mem r).size)
include hs

omit hlo hup in
theorem store_header {l : List UInt8} (hl : l.length ≤ 12) :
    rd₁.store (rd₁.pool.ctl.mem r).buf l =
      some { rd₁ with mem := write rd₁.mem (rd₁.pool.ctl.mem r).buf l } ∧
      Takes rd { rd₁ with mem := write rd₁.mem (rd₁.pool.ctl.mem r).buf l } [r] := by
  obtain ⟨fs, ps, hsound⟩ := t.sound
  have hend := hsound.geometry.bufend r (t.lt_nctl r (.head _))
  exact store_eq t (.head _) (Int.le_refl _) (by omega)

theorem readHeader_full (ht : timeout ≠ timeoutAsync) (h12 : 12 ≤ (ready input).length)
    (hn : word (ready input) < 2147481600 ∨ limit.any (· < word (ready input))) :
    ∃ g, rd₁.readHeader al timeout limit (rd₁.pool.ctl.mem r).buf input = some g ∧
      Replies al rd input (answer timeout limit (ready input) (headFault (rest input))) g := by
  obtain ⟨hsts, hg, hi, hr⟩ := pduread_ready ht h12
  simp only [readHeader]
  generalize pduread timeout input 12 = p at hsts hg hi hr
  have hgl : p.got.length = 12 := by simp [hg, h12]
  have hd : p.got ++ ready p.input = ready input := by rw [hg, hi, take_append_drop]
  obtain ⟨hst, t₁⟩ := store_header t hs (le_of_eq hgl)
  have hc := checkLen_replies al t₁ hlo hup ht hn (by omega) (le_of_eq hgl) hd hr (.inl h12) hs
    .write
  simpa [hst, hsts, hgl] using hc

theorem readHeader_short (ht : timeout ≠ timeoutAsync) (h12 : (ready input).length < 12)
    (hn : Sized limit (ready input) (headFault (rest input))) :
    ∃ g, rd₁.readHeader al timeout limit (rd₁.pool.ctl.mem r).buf input = some g ∧
      Replies al rd input (answer timeout limit (ready input) (headFault (rest input))) g := by
  obtain ⟨hsts, hg, hi⟩ := pduread_short ht h12
  simp only [cast_ofNat] at hsts hg hi
  simp only [readHeader]
  generalize pduread timeout input 12 = p at hsts hg hi
  obtain ⟨hst, t₁⟩ := store_header t hs (le_of_lt h12)
  have hfail := fun sts => fail_replies al t₁ hlo hup sts input p.input
  have h12' := Nat.not_le_of_lt h12
  simp only [hg, hst, hsts, bind_eq_bind]
  cases hf : headFault (rest input)
  case some e =>
    cases e
    case timeout =>
      simpa [Fault.status, pmErrTimeout, answer, ht, h12'] using hfail pmErrTimeout
    case error => simpa [Fault.status, answer, ht, h12'] using hfail 0
  case none =>
    have hrest := rest_eq_nil hf
    rw [hrest] at hi
    by_cases h4 : 4 ≤ (ready input).length
    · have hd : ready input ++ ready p.input = ready input := by simp [hi, ready]
      have hr : rest p.input = rest input := by simp [hi, hrest, rest]
      have hc := checkLen_replies al t₁ hlo hup ht (hn (.inr ⟨hf, h4⟩)) h4 (le_of_lt h12) hd hr
        (.inr ⟨hf, h4⟩) hs
        .write
      simpa [h4, hf] using hc
    · by_cases h₀ : ready input = []
      · simpa [answer, ht, h₀, pmErrTimeout] using hfail 0
      · simpa [answer, h₀, h4, h12', pmErrTimeout] using hfail pmErrIpc

theorem readHeader_async :
    ∃ g, rd₁.readHeader al timeoutAsync limit (rd₁.pool.ctl.mem r).buf input = some g ∧
      Replies al rd input (answer timeoutAsync limit (ready input) (headFault (rest input))) g := by
  obtain ⟨hst, t₁⟩ := store_header t hs (l := []) (by simp)
  have hfail := fail_replies al t₁ hlo hup pmErrIpc input input
  simpa [readHeader, pduread, answer, hst, eopnotsupp, pmErrTimeout] using hfail

end Header

theorem getPDU_replies (al : Allocator) (timeout : Int) (limit : Option Int) (input : Input)
    (hv : rd.Valid) (hn : Sized limit (ready input) (headFault (rest input))) :
    ∃ g, rd.getPDU al timeout limit input = some g ∧
      Replies al rd input (answer timeout limit (ready input) (headFault (rest input))) g := by
  have t₀ := Takes.refl hv.sound
  simp only [getPDU]
  rcases findPDUBuf_eq al t₀ (by have := hv.lower; omega) hv.upper with
    ⟨hf, ha⟩ | ⟨pool, r, hf, hfound, hsz⟩
  case inl => exact ⟨_, by simp only [hf]; rfl, hv.lower, hv.upper, .inl ⟨⟨rfl, rfl, t₀⟩, ha⟩⟩
  case inr =>
    have t₁ : Takes rd { rd with pool } [r] := t₀.find hfound
    have hs : 1024 ≤ (pool.ctl.mem r).size := hv.lower.trans hsz
    simp only [hf, bind_eq_bind]
    by_cases ht : timeout = timeoutAsync
    · subst ht
      exact readHeader_async al t₁ hv.lower hv.upper hs
    · by_cases h12 : 12 ≤ (ready input).length
      · exact readHeader_full al t₁ hv.lower hv.upper hs ht h12 (hn (.inl h12))
      · exact readHeader_short al t₁ hv.lower hv.upper hs ht (Nat.lt_of_not_le h12) hn

end Reader

end PduIo
