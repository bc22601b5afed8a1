import PcpModel.PduIo.Receive

-- Sequences of PDUs that are sent over a stream (pdu.c).
namespace PduIo

open Memory PduBuf Stream List Pcp

structure Pdu where
  type : Nat
  pduFrom : Nat
  body : List UInt8
  type_lt : type < 0x80000000
  from_lt : pduFrom < 0x100000000
  len_lt : 12 + body.length < 0x80000000

namespace Pdu

variable (p : Pdu)

def len : Nat :=
  12 + p.body.length

def host : List UInt8 :=
  le p.len ++ le p.type ++ le p.pduFrom ++ p.body

def wire : List UInt8 :=
  be p.len ++ be p.type ++ be p.pduFrom ++ p.body

def Accepted (limit : Option Int) : Prop :=
  ¬limit.any (· < (p.len : Int)) ∧ p.len < 2147481600

instance : Decidable (p.Accepted limit) :=
  inferInstanceAs (Decidable (_ ∧ _))

variable {p}

theorem host_length : p.host.length = p.len := by
  simp [host, len]
  omega

theorem wire_length : p.wire.length = p.len := by
  simp [wire, len]
  omega

theorem word_wire : word (p.wire ++ d) = p.len := by
  have h : Holds (image (p.wire ++ d)) 0 (be p.len) := by
    have hw : p.wire ++ d = be p.len ++ (be p.type ++ be p.pduFrom ++ p.body ++ d) := by simp [wire]
    exact hw ▸ image_holds
  have := p.len_lt
  rw [word, h.be32_eq, CInt.ofWord, len]
  split <;> omega

theorem word_wire_self (p : Pdu) : word p.wire = p.len := by
  rw [← append_nil p.wire, word_wire]

theorem word_wire_drop : word ((p.wire ++ d).drop 4) = p.type := by
  have h : Holds (image ((p.wire ++ d).drop 4)) 0 (be p.type) := by
    have hw : (p.wire ++ d).drop 4 = be p.type ++ (be p.pduFrom ++ p.body ++ d) := rfl
    exact hw ▸ image_holds
  have := p.type_lt
  rw [word, h.be32_eq, CInt.ofWord]
  split <;> omega

end Pdu

section Send

variable {m : Bytes} {p : Pdu}

theorem sendAll_eq (h : sendAll ws l = some r) :
    r.bytes <+: l ∧ (r.error = none → r.bytes = l) := by
  induction ws generalizing l r
  case nil =>
    cases l
    case nil =>
      cases h
      simp
    case cons => contradiction
  case cons w ws hi =>
    cases l
    case nil =>
      cases h
      simp
    case cons b l =>
      cases w
      case error sts =>
        cases h
        simp
      case ok n =>
        obtain ⟨r', h', rfl⟩ := Option.map_eq_some_iff.mp h
        have ⟨hp, he⟩ := hi h'
        refine ⟨?_, fun hn => ?_⟩
        · conv => rhs; rw [← take_append_drop n (b :: l)]
          exact (prefix_append_right_inj _).mpr hp
        · rw [he hn, take_append_drop]

theorem swapHeader_swapHeader : swapHeader (swapHeader m a) a = m := by
  have h₀₈ : ∀ m, rev (rev m (a + 8) 4) a 4 = rev (rev m a 4) (a + 8) 4 := fun _ =>
    rev_comm (.inr (by omega))
  have h₀₄ : ∀ m, rev (rev m (a + 4) 4) a 4 = rev (rev m a 4) (a + 4) 4 := fun _ =>
    rev_comm (.inr (by omega))
  have h₄₈ : ∀ m, rev (rev m (a + 8) 4) (a + 4) 4 = rev (rev m (a + 4) 4) (a + 8) 4 := fun _ =>
    rev_comm (.inr (by omega))
  simp only [swapHeader]
  rw [h₀₈, h₀₄, rev_rev, h₄₈, rev_rev, rev_rev]

theorem swapHeader_host (h : Holds m a p.host) : Holds (swapHeader m a) a p.wire := by
  have hl : 12 ≤ p.host.length := by simp [Pdu.host_length, Pdu.len]
  exact ofWire_holds hl (swap_holds (by omega) h)

theorem xmitPDU_eq (h : Holds m a p.host) : xmitPDU m a ws =
    (sendAll ws p.wire).map fun r => (r.error.elim (p.len : Int) (·.val), r.bytes, m) := by
  have hl : loadInt m a = p.len := by
    have hlt := p.len_lt
    simp only [Pdu.host, append_assoc, Holds.append] at h
    rw [loadInt, h.left.le32_eq, CInt.ofWord, Pdu.len]
    split <;> omega
  have hb : bytesAt (swapHeader m a) a p.len = p.wire := by
    rw [← Pdu.wire_length]
    exact bytesAt_holds (swapHeader_host h)
  simp only [xmitPDU, hl, Int.toNat_natCast, hb, swapHeader_swapHeader]
  cases sendAll ws p.wire <;> rfl

-- The bytes that are written by a call of `__pmXmitPDU` that succeeds.
def Transmits (p : Pdu) (bytes : List UInt8) : Prop :=
  ∃ m a ws m', Holds m a p.host ∧ xmitPDU m a ws = some ((p.len : Int), bytes, m')

theorem Transmits.eq_wire (h : Transmits p bytes) : bytes = p.wire := by
  obtain ⟨m, a, ws, m', hm, hx⟩ := h
  rw [xmitPDU_eq hm] at hx
  obtain ⟨r, hr, he⟩ := Option.map_eq_some_iff.mp hx
  simp only [Prod.mk.injEq] at he
  obtain ⟨hs, rfl, _⟩ := he
  refine (sendAll_eq hr).right ?_
  cases herr : r.error
  case none => rfl
  case some e =>
    simp only [herr, Option.elim_some] at hs
    omega

theorem Pdu.transmits (p : Pdu) : Transmits p p.wire := by
  have hm : Holds (write (fun _ => 0) 0 p.host) 0 p.host := .write
  refine ⟨_, 0, [.ok p.len], write (fun _ => 0) 0 p.host, hm, (xmitPDU_eq hm).trans ?_⟩
  have hs : sendAll [.ok p.len] p.wire = some { bytes := p.wire, error := none } := by
    rw [← Pdu.wire_length]
    simp [Pdu.wire, be, sendAll]
  rw [hs]
  rfl

theorem wires_of_transmits (h : Forall₂ Transmits pdus bss) :
    bss.flatten = pdus.flatMap Pdu.wire := by
  induction h
  case nil => rfl
  case cons h _ hi => rw [flatten_cons, flatMap_cons, h.eq_wire, hi]

end Send

section Answer

variable {limit : Option Int} {timeout : Int} {p : Pdu}

theorem answer_pdu (ht : timeout ≠ timeoutAsync) (hp : p.Accepted limit) :
    answer timeout limit (p.wire ++ d) fault = .pdu p.type p.len := by
  have hl : (p.wire ++ d).length = p.len + d.length := by simp [Pdu.wire_length]
  have h12 : 12 ≤ p.len := by simp [Pdu.len]
  have hc : 12 ≤ (p.wire ++ d).length := by omega
  have h₁ : ¬(p.len : Int) < 12 := by omega
  have h₂ : ¬((p.wire ++ d).length : Int) < p.len := by omega
  have h₃ : ¬(p.type : Int) < 0 := by omega
  simp only [answer, ht, hc, Pdu.word_wire, Pdu.word_wire_drop, h₁, h₂, h₃, hp.left, true_or,
    if_true, if_false, Int.toNat_natCast, Bool.false_eq_true]

theorem answer_end (ht : timeout ≠ timeoutAsync) : answer timeout limit [] none = .status 0 := by
  simp [answer, ht]

-- The stream ends within a PDU.
def Cut (limit : Option Int) (d : List UInt8) : Prop :=
  d ≠ [] ∧ ∃ p : Pdu, p.Accepted limit ∧ d <+: p.wire ∧ d ≠ p.wire

-- The length is not the one of a PDU, or the type is not the one of a PDU.
def Impossible (limit : Option Int) (d : List UInt8) : Prop :=
  4 ≤ d.length ∧ word d < 12 ∨ 12 ≤ d.length ∧ ¬limit.any (· < word d) ∧ word (d.drop 4) < 0

def Bad (limit : Option Int) (d : List UInt8) : Prop :=
  d ≠ [] ∧ (4 ≤ d.length → word d < 12 ∨
    ¬limit.any (· < word d) ∧ (d.length < word d ∨ word (d.drop 4) < 0))

theorem Cut.bad (h : Cut limit d) : Bad limit d := by
  obtain ⟨hne, p, hp, ⟨s, hs⟩, hd⟩ := h
  refine ⟨hne, fun h4 => .inr ?_⟩
  have hw : word d = p.len := by
    have hw := p.word_wire_self
    rwa [← hs, word_append h4] at hw
  have hl : d.length < p.len := by
    have hlen := congrArg length hs
    rw [length_append, Pdu.wire_length] at hlen
    have : s ≠ [] := fun he => hd (by simpa [he] using hs)
    have := length_pos_iff.mpr this
    omega
  rw [hw]
  exact ⟨hp.left, .inl (by omega)⟩

theorem Impossible.bad (h : Impossible limit d) : Bad limit d := by
  rcases h with ⟨h4, hw⟩ | ⟨h12, hlim, hw⟩
  · exact ⟨ne_nil_of_length_pos (by omega), fun _ => .inl hw⟩
  · exact ⟨ne_nil_of_length_pos (by omega), fun _ => .inr ⟨hlim, .inr hw⟩⟩

-- An error is taken for the end of the stream, unless the header has been read.
theorem Bad.answer (ht : timeout ≠ timeoutAsync) (h : Bad limit d) (fault : Option Fault) :
    ∃ sts, answer timeout limit d fault = .status sts ∧
      ((sts = pmErrIpc ∨ sts = pmErrTimeout) ↔ (fault ≠ some .error ∨ 12 ≤ d.length)) := by
  obtain ⟨hne, h⟩ := h
  simp only [PduIo.answer, ht, if_false]
  split
  case isTrue hc =>
    have he : fault ≠ some .error ∨ 12 ≤ d.length := hc.symm.imp (by simp_all) id
    simp only [he, iff_true]
    split
    case isTrue => exact ⟨_, rfl, .inl rfl⟩
    case isFalse h12 =>
      obtain ⟨hlim, h⟩ := (h (by omega)).resolve_left h12
      simp only [hlim, if_false, Bool.false_eq_true]
      split
      case isTrue =>
        refine ⟨_, rfl, ?_⟩
        split
        · exact .inr rfl
        · exact .inl rfl
      case isFalse hlt =>
        simp only [h.resolve_left hlt]
        exact ⟨_, rfl, .inl rfl⟩
  case isFalse hc =>
    have h12 : ¬12 ≤ d.length := fun h12 => hc (.inl h12)
    rcases fault with _ | _ | _
    · exact ⟨pmErrIpc, rfl, by simp⟩
    · exact ⟨_, rfl, by simp⟩
    · exact ⟨_, rfl, by simp [h12, pmErrIpc, pmErrTimeout]⟩

end Answer

def Intact (rd : Reader) (p : Pdu) (a : Int) : Prop :=
  ∃ r < rd.pool.nctl, 1 ≤ rd.pool.ctl.pincnt r ∧ (rd.pool.ctl.mem r).buf = a ∧
    p.len ≤ (rd.pool.ctl.mem r).size ∧ Holds rd.mem a p.host

theorem Takes.intact (t : Takes rd rd' rs) (hs : ∃ fs ps, rd.pool.Sound fs ps) (h : Intact rd p a) :
    Intact rd' p a := by
  obtain ⟨r, hr, hp, rfl, hl, hm⟩ := h
  obtain ⟨fs, ps, hs⟩ := hs
  have hend := hs.geometry.bufend r hr
  have hr' := hr.trans_le t.nctl_le
  refine ⟨r, hr', ?_, by rw [t.areas r hr], by rwa [t.areas r hr], fun i hi => ?_⟩
  · rw [t.pincnt r hr']
    split <;> simp_all
  · rw [← hm i hi]
    rw [Pdu.host_length] at hi
    exact t.kept r hr hp _ ⟨by omega, by omega⟩

namespace Reader

variable (al : Allocator) (timeout : Int) (limit : Option Int)

def getMany : Nat → Reader → Input → Option (List Got × Reader × Input)
  | 0, rd, input => some ([], rd, input)
  | n + 1, rd, input => do
    let g ← rd.getPDU al timeout limit input
    let (gs, rd, input) ← getMany n g.reader g.input
    return (g :: gs, rd, input)

variable {al timeout limit} {rd : Reader}

-- A buffer is left pinned iff a PDU is returned, which is in that buffer.
def Pins (rd : Reader) (g : Got) : Prop :=
  ∃ rs, Takes rd g.reader rs ∧ rs.map (fun r => (g.reader.pool.ctl.mem r).buf) = g.pdu.toList

theorem Fails.pins (h : Fails rd sts g) : rd.Pins g :=
  ⟨[], h.right.right, by simp [h.right.left]⟩

theorem Delivers.pins (h : Delivers rd l g) : rd.Pins g := by
  obtain ⟨r, hg, t, _⟩ := h
  exact ⟨[r], t, by simp [hg]⟩

theorem Pins.sound (h : rd.Pins g) : ∃ fs ps, g.reader.pool.Sound fs ps := by
  obtain ⟨_, t, _⟩ := h
  exact t.sound

theorem Pins.intact (h : rd.Pins g) (hv : rd.Valid) (hi : Intact rd p a) : Intact g.reader p a := by
  obtain ⟨_, t, _⟩ := h
  exact t.intact hv.sound hi

theorem Replies.pins (h : Replies al rd input ans g) : rd.Pins g := by
  rcases h.reply with hf | ha
  · exact Fails.pins hf.left
  · cases ans
    case status => exact Fails.pins ha
    case pdu => exact Delivers.pins ha.right.left

theorem Replies.valid (h : Replies al rd input ans g) : g.reader.Valid :=
  ⟨h.pins.sound, h.lower, h.upper⟩

theorem getPDU_next (hal : al.Plenty) (hv : rd.Valid) (ht : timeout ≠ timeoutAsync)
    (hp : p.Accepted limit) (hd : ready input = p.wire ++ d) :
    ∃ g a, rd.getPDU al timeout limit input = some g ∧ g.reader.Valid ∧ rd.Pins g ∧
      g.sts = p.type ∧ g.pdu = some a ∧ Intact g.reader p a ∧
      ready g.input = d ∧ rest g.input = rest input := by
  have hw : word (ready input) = p.len := by rw [hd, Pdu.word_wire]
  obtain ⟨g, hg, hr⟩ := getPDU_replies al timeout limit input hv fun _ =>
    .inl (by have := hp.right; omega)
  have ha := hr.reply.resolve_left fun h => h.right hal
  rw [hd, answer_pdu ht hp] at ha
  obtain ⟨hs, ⟨r, hres, t, hl, hm⟩, hi, hrest⟩ := ha
  have htake : (p.wire ++ d).take p.len = p.wire := by
    rw [← Pdu.wire_length, take_left]
  have hdrop : (p.wire ++ d).drop p.len = d := by
    rw [← Pdu.wire_length, drop_left]
  rw [hd, hdrop] at hi
  rw [hd, htake] at hl hm
  have hlt := t.lt_nctl r (.head _)
  refine ⟨g, _, hg, hr.valid, hr.pins, hs, hres, ⟨r, hlt, ?_, rfl, ?_, ?_⟩, hi, hrest⟩
  · rw [t.pincnt r hlt]
    simp
  · rwa [Pdu.wire_length] at hl
  · exact hm

theorem getMany_eq (hal : al.Plenty) (hv : rd.Valid) (ht : timeout ≠ timeoutAsync)
    (hp : ∀ p ∈ pdus, p.Accepted limit) (hd : ready input = pdus.flatMap Pdu.wire ++ d) :
    ∃ gs rd' input', getMany al timeout limit pdus.length rd input = some (gs, rd', input') ∧
      rd'.Valid ∧ ready input' = d ∧ rest input' = rest input ∧
      Forall₂ (fun g p => g.sts = p.type ∧ ∃ a, g.pdu = some a ∧ Intact rd' p a) gs pdus ∧
      ∀ p a, Intact rd p a → Intact rd' p a := by
  induction pdus generalizing rd input
  case nil => exact ⟨[], rd, input, rfl, hv, by simpa using hd, rfl, .nil, fun _ _ h => h⟩
  case cons p pdus hi =>
    obtain ⟨hp, hps⟩ := forall_mem_cons.mp hp
    rw [flatMap_cons, append_assoc] at hd
    obtain ⟨g, a, hg, hv₁, hpin, hs, hres, hin, hd₁, hr₁⟩ := getPDU_next hal hv ht hp hd
    obtain ⟨gs, rd', input', hgs, hv', hd', hr', hall, hkeep⟩ := hi hv₁ hps hd₁
    refine ⟨g :: gs, rd', input', ?_, hv', hd', hr'.trans hr₁, ?_, fun p' a' h => ?_⟩
    · simp [getMany, hg, hgs]
    · exact .cons ⟨hs, a, hres, hkeep p a hin⟩ hall
    · exact hkeep p' a' (hpin.intact hv h)

theorem getPDU_end (hal : al.Plenty) (hv : rd.Valid) (ht : timeout ≠ timeoutAsync)
    (hd : ready input = []) (hf : headFault (rest input) = none) :
    ∃ g, rd.getPDU al timeout limit input = some g ∧ g.pdu = none ∧ g.sts = 0 := by
  obtain ⟨g, hg, hr⟩ := getPDU_replies al timeout limit input hv fun h => by simp [hd, Begun] at h
  have ha := hr.reply.resolve_left fun h => h.right hal
  rw [hd, hf, answer_end ht] at ha
  exact ⟨g, hg, ha.right.left, ha.left⟩

theorem getPDU_bad (hal : al.Plenty) (hv : rd.Valid) (ht : timeout ≠ timeoutAsync)
    (hn : Sized limit (ready input) (headFault (rest input))) (hb : Bad limit (ready input)) :
    ∃ g, rd.getPDU al timeout limit input = some g ∧ g.pdu = none ∧
      ((g.sts = pmErrIpc ∨ g.sts = pmErrTimeout) ↔
        (headFault (rest input) ≠ some .error ∨ 12 ≤ (ready input).length)) := by
  obtain ⟨g, hg, hr⟩ := getPDU_replies al timeout limit input hv hn
  have ha := hr.reply.resolve_left fun h => h.right hal
  obtain ⟨sts, hs, hiff⟩ := hb.answer ht (headFault (rest input))
  rw [hs] at ha
  exact ⟨g, hg, ha.right.left, ha.left ▸ hiff⟩

-- `bss` is what is written for the PDUs, and `d` is what arrives behind them.
theorem getPDU_sequence (al : Allocator) (timeout : Int) (limit : Option Int) (hv : rd.Valid) :
    (∀ input, Sized limit (ready input) (headFault (rest input)) →
      ∃ g, rd.getPDU al timeout limit input = some g ∧ g.reader.Valid ∧ rd.Pins g) ∧
    (al.Plenty → timeout ≠ timeoutAsync → ∀ pdus bss input d,
      List.Forall₂ Transmits pdus bss → (∀ p ∈ pdus, p.Accepted limit) →
      ready input = bss.flatten ++ d →
      ∃ gs rd' input', getMany al timeout limit pdus.length rd input = some (gs, rd', input') ∧
        rd'.Valid ∧
        List.Forall₂ (fun g p => g.sts = p.type ∧ ∃ a, g.pdu = some a ∧ Intact rd' p a) gs pdus ∧
        (d = [] → headFault (rest input) = none →
          ∃ g, rd'.getPDU al timeout limit input' = some g ∧ g.pdu = none ∧ g.sts = 0) ∧
        (Cut limit d ∨ Impossible limit d → Sized limit d (headFault (rest input)) →
          ∃ g, rd'.getPDU al timeout limit input' = some g ∧ g.pdu = none ∧
            ((g.sts = pmErrIpc ∨ g.sts = pmErrTimeout) ↔
              (headFault (rest input) ≠ some .error ∨ 12 ≤ d.length)))) := by
  refine ⟨fun input hn => ?_, fun hal ht pdus bss input d hb hp hd => ?_⟩
  · obtain ⟨g, hg, hr⟩ := getPDU_replies al timeout limit input hv hn
    exact ⟨g, hg, hr.valid, hr.pins⟩
  · rw [wires_of_transmits hb] at hd
    obtain ⟨gs, rd', input', hgs, hv', hd', hr', hall, _⟩ := getMany_eq hal hv ht hp hd
    refine ⟨gs, rd', input', hgs, hv', hall, fun hnil hf => ?_, fun hbad hn => ?_⟩
    · exact getPDU_end hal hv' ht (hd'.trans hnil) (hr' ▸ hf)
    · have h := getPDU_bad hal hv' ht (hd' ▸ hr' ▸ hn) (hd' ▸ hbad.elim Cut.bad Impossible.bad)
      rwa [hd', hr'] at h

def init : Reader where
  pool := Pool.init
  mem _ := 0
  maxsize := 1024

-- A PDU that arrives in two parts, and a part of a PDU that is cut.
theorem getPDU_sequence_one :
    let p : Pdu := ⟨0x7000, 7, [1, 2, 3, 4, 5], by decide, by decide, by decide⟩
    let input := [.data (p.wire.take 3), .data (p.wire.drop 3 ++ [0, 0, 0, 20])]
    ∃ gs rd' input', getMany .behind 5 (some 65536) 1 init input = some (gs, rd', input') ∧
      Forall₂ (fun g p => g.sts = p.type ∧ ∃ a, g.pdu = some a ∧ Intact rd' p a) gs [p] ∧
      ∃ g, rd'.getPDU .behind 5 (some 65536) input' = some g ∧ g.pdu = none ∧
        (g.sts = pmErrIpc ∨ g.sts = pmErrTimeout) := by
  intro p input
  have hv : init.Valid := ⟨⟨_, _, Pool.Sound.init⟩, by decide, by decide⟩
  have hn : Sized (some 65536) [0, 0, 0, 20] none := fun _ => .inl (by decide)
  have hc : Cut (some 65536) [0, 0, 0, 20] :=
    ⟨by simp, ⟨0, 0, [1, 2, 3, 4, 5, 6, 7, 8], by decide, by decide, by decide⟩, by decide⟩
  obtain ⟨gs, rd', input', hgs, _, hall, _, hbad⟩ :=
    (getPDU_sequence .behind 5 (some 65536) hv).right Allocator.behind_plenty (by decide)
      [p] [p.wire] input [0, 0, 0, 20] (.cons p.transmits .nil) (by decide) rfl
  obtain ⟨g, hg, hp, hiff⟩ := hbad (.inl hc) hn
  exact ⟨gs, rd', input', hgs, hall, g, hg, hp, hiff.mpr (by decide)⟩

-- A reset within a header looks like an end. The size of the buffer for a large PDU is negative.
theorem getPDU_unsound :
    ((init.getPDU .behind 5 none [.data [0, 0, 0, 20], .fault .error]).map fun g =>
      (g.sts, g.pdu)) =
      some (0, none) ∧
    (do
      let g ← init.getPDU .behind 5 none [.data [0, 0, 0, 16, 0, 0, 112, 0, 0, 0, 0, 0, 1, 2, 3, 4]]
      let rd ← g.reader.unpinPDUBuf (← g.pdu)
      let header := [0x7f, 0xff, 0xff, 0xff, 0, 0, 112, 0, 0, 0, 0, 0]
      return (rd.getPDU .behind 5 none [.data (header ++ List.replicate 2037 0)]).isNone) =
      some true := by
  decide +kernel

end Reader

end PduIo
