import PcpModel.PduResult.Endian

-- Value blocks as they are on the host, and as they are on the network.
namespace PduResult

open Memory Memory.Prog

inductive Order
  | host
  | network

namespace Order

def put : Order → List UInt8 → List UInt8
  | host, l => l
  | network, l => l.reverse

@[simp]
theorem put_length : ∀ o : Order, (o.put l).length = l.length
  | host => rfl
  | network => l.length_reverse

theorem put_nil : ∀ o : Order, o.put [] = []
  | host | network => rfl

abbrev word (o : Order) (n : UInt32) : List UInt8 :=
  o.put (le n.toNat)

def flip : Order → Order
  | host => network
  | network => host

theorem swap_turns {o : Order} (h : Holds m a (o.put l)) (hn : l.length = n) :
    Turns (swap a n) m a (o.flip.put l) () := by
  cases o
  case host => exact .swap h hn
  case network => simpa [put, flip] using Turns.swap h (l.length_reverse.trans hn)

theorem word_turns {o : Order} (h : Holds m a (o.word n ++ k)) :
    Turns (swap a 4) m a (o.flip.word n) () :=
  swap_turns (Holds.append.mp h).left rfl

theorem next_word {o : Order} (h : Holds m a (o.word n ++ k₀)) (hb : b = a + 4)
    (hf : Holds (swap a 4 m).mem b k₀ → Turns (f ()) (swap a 4 m).mem b k w) :
    Turns (swap a 4 >>= f) m a (o.flip.word n ++ k) w :=
  .next h (word_turns h) (by simp) (by simpa) hf

theorem word_le32 (h : Holds m a (host.word n)) : le32 m a = n.toNat := by
  have := n.toNat_lt
  rw [h.le32_eq]
  omega

theorem word_loadInt (h : Holds m a (host.word n)) : (loadInt a m).val = CInt.ofWord n.toNat := by
  simp [loadInt, word_le32 h]

theorem word_loadMissed (h : Holds m a (host.word n)) :
    (loadMissed a m).val = decide (n.toNat ≥ 0x80000000) := by
  simp [loadMissed, word_le32 h]

end Order

def header (t : UInt8) (n : Nat) : List UInt8 :=
  [.ofNat n, .ofNat (n / 0x100), .ofNat (n / 0x10000), t]

@[simp]
theorem header_length : (header t n).length = 4 :=
  rfl

theorem header_vtype (h : Holds m a (header t n)) : vtype m a = t := by
  simp [header, add_assoc] at h
  simp [vtype, h]

theorem header_vlen (h : Holds m a (header t n)) (hn : n < 0x1000000) : vlen m a = n := by
  simp [header, add_assoc] at h
  simp [vlen, h]
  omega

def padding (n : Nat) : Nat :=
  pduSizeBytes n - n

theorem add_padding : n + padding n = pduSizeBytes n := by
  simp [padding, pduSizeBytes]
  omega

-- pmEventParameter
structure Param where
  pmid : UInt32
  vtype : UInt8
  vbuf : List UInt8
  pad : List UInt8
  vbuf_length : paramWidth vtype ≤ vbuf.length
  small : 4 + vbuf.length < 0x1000000
  pad_length : pad.length = padding (4 + vbuf.length)

-- The value at the start of a buffer is swapped, the rest of the buffer is not.
def putValue (o : Order) (width : Nat) (vbuf : List UInt8) : List UInt8 :=
  o.put (vbuf.take width) ++ vbuf.drop width

@[simp]
theorem putValue_length : (putValue o n l).length = l.length := by
  simp [putValue]
  omega

def Param.bytes (o : Order) (p : Param) : List UInt8 :=
  o.word p.pmid ++ (o.put (header p.vtype (4 + p.vbuf.length)) ++
    (putValue o (paramWidth p.vtype) p.vbuf ++ p.pad))

@[simp]
theorem Param.bytes_length {p : Param} :
    (p.bytes o).length = 4 + pduSizeBytes (4 + p.vbuf.length) := by
  simp [bytes, p.pad_length, ← add_padding]
  omega

theorem swapValue_turns (h : Holds m a (putValue o n l)) (hn : n ≤ l.length) :
    Turns (swapValue a n) m a (putValue o.flip n l) () := by
  unfold swapValue
  by_cases h0 : n = 0
  · subst h0
    exact .pure <| by simpa [putValue, Order.put_nil] using h
  · have ht := Order.swap_turns (Holds.append.mp h).left <| List.length_take_of_le hn
    rw [if_neg h0]
    exact .append h ht (by simp)

theorem Hton.param_turns (p : Param) (h : Holds m a (p.bytes .host)) :
    Turns (Hton.param a) m a (p.bytes .network) (a + (p.bytes .host).length) := by
  have hp := (Holds.append.mp h).left
  refine .next h (Order.swap_turns hp rfl) (by simp) (b := a + 4) (by simp) fun h => ?_
  have hh := (Holds.append.mp h).left
  refine .bind_read (header_vtype hh) rfl <| .bind_read (header_vlen hh p.small) rfl ?_
  refine .next h (Order.swap_turns hh rfl) (by simp) (b := a + 8) ?_ fun h => ?_
  · simp; omega
  have hv := (Holds.append.mp h).left
  refine .next h (swapValue_turns hv p.vbuf_length) (by simp) rfl fun h => ?_
  simpa [add_assoc] using Turns.pure h

theorem Ntoh.param_turns (p : Param) (h : Holds m a (p.bytes .network)) :
    Turns (Ntoh.param a) m a (p.bytes .host) (a + (p.bytes .network).length) := by
  have hp := (Holds.append.mp h).left
  refine .next h (Order.swap_turns hp rfl) (by simp) (b := a + 4) (by simp) fun h => ?_
  have hh := Order.swap_turns (Holds.append.mp h).left rfl
  refine .next h hh (by simp) (b := a + 8) ?_ fun h => ?_
  · simp; omega
  refine .bind_read (header_vtype hh.holds) rfl ?_
  have hv := swapValue_turns (Holds.append.mp h).left p.vbuf_length
  refine .next h hv (by simp) rfl fun h => ?_
  have hl := header_vlen (hv.beside hh.holds <| by simp; omega) p.small
  refine .bind_read hl rfl ?_
  simpa [add_assoc] using Turns.pure h

-- pmEventRecord: a record of missed events has no parameters.
structure Record where
  sec : UInt32
  usec : UInt32
  flags : UInt32
  nparams : UInt32
  params : List Param
  count : params.length =
    if flags.toNat ≥ 0x80000000 then 0 else (CInt.ofWord nparams.toNat).toNat

def Record.bytes (o : Order) (r : Record) : List UInt8 :=
  o.word r.sec ++ (o.word r.usec ++ (o.word r.flags ++ (o.word r.nparams ++
    r.params.flatMap (·.bytes o))))

theorem Record.bytes_length {r : Record} :
    (r.bytes o).length = 16 + (r.params.map fun p => 4 + pduSizeBytes (4 + p.vbuf.length)).sum := by
  simp [bytes]
  omega

theorem Hton.record_turns (r : Record) (h : Holds m a (r.bytes .host)) :
    Turns (Hton.record a) m a (r.bytes .network) (a + (r.bytes .host).length) := by
  refine Order.next_word h rfl fun h => Order.next_word h (b := a + 8) (by omega) fun h => ?_
  have ⟨hf, hn⟩ := Holds.append.mp h
  have hn := (Holds.append.mp hn).left
  simp only [Order.put_length, le_length] at hn
  refine .bind_read (Order.word_loadMissed hf) rfl ?_
  refine .bind_read (Order.word_loadInt <| by convert hn using 1; omega) rfl ?_
  refine Order.next_word h (b := a + 12) (by omega) fun h => ?_
  refine Order.next_word h (b := a + 16) (by omega) fun h => ?_
  have := Turns.walk (by simp) (fun p _ _ => Hton.param_turns p) h
  rw [r.count] at this
  simpa [Record.bytes_length, add_assoc] using this

theorem Ntoh.record_turns (r : Record) (h : Holds m a (r.bytes .network)) :
    Turns (Ntoh.record a) m a (r.bytes .host) (a + (r.bytes .network).length) := by
  refine Order.next_word h rfl fun h => Order.next_word h (b := a + 8) (by omega) fun h => ?_
  have hf := (Order.word_turns h).holds
  refine Order.next_word h (b := a + 12) (by omega) fun h => ?_
  have hn := (Order.word_turns h).holds
  have hf := (Order.word_turns h).beside hf (by simp; omega)
  refine Order.next_word h (b := a + 16) (by omega) fun h => ?_
  refine .bind_read (Order.word_loadMissed hf) rfl ?_
  refine .bind_read (Order.word_loadInt hn) rfl ?_
  have := Turns.walk (by simp) (fun p _ _ => Ntoh.param_turns p) h
  rw [r.count] at this
  simpa [Record.bytes_length, add_assoc] using this

-- pmEventArray, without the first word that it has in common with other blocks.
structure EventArray where
  nrecords : UInt32
  records : List Record
  count : records.length = (CInt.ofWord nrecords.toNat).toNat

inductive Body
  | raw (vbuf : List UInt8)
  | events (ea : EventArray) (rest : List UInt8)

namespace Body

def isEvents : Body → Bool
  | raw _ => false
  | events _ _ => true

def bytes (o : Order) (t : UInt8) : Body → List UInt8
  | raw vbuf => putValue o (blockWidth t) vbuf
  | events ea rest => o.word ea.nrecords ++ (ea.records.flatMap (·.bytes o) ++ rest)

theorem bytes_length (body : Body) (o o' : Order) :
    (body.bytes o t).length = (body.bytes o' t).length := by
  cases body <;> simp [bytes, Record.bytes_length]

end Body

-- pmValueBlock, where a block of type PM_TYPE_EVENT is well formed.
structure Block where
  vtype : UInt8
  body : Body
  event : vtype = PmType.event ↔ body.isEvents
  small : 4 + (body.bytes .host vtype).length < 0x1000000

namespace Block

def vlen (b : Block) : Nat :=
  4 + (b.body.bytes .host b.vtype).length

def bytes (o : Order) (b : Block) : List UInt8 :=
  o.put (header b.vtype b.vlen) ++ b.body.bytes o b.vtype

@[simp]
theorem bytes_length {b : Block} : (b.bytes o).length = b.vlen := by
  simp [bytes, vlen, b.body.bytes_length o .host]

-- The value that is swapped lies in the block.
def Fits (b : Block) : Prop :=
  4 + blockWidth b.vtype ≤ b.vlen

end Block

theorem vbuf_turns {body : Body} (he : t = PmType.event ↔ body.isEvents)
    (hw : 4 + blockWidth t ≤ 4 + (body.bytes .host t).length)
    (h : Holds m (a + 4) (body.bytes o t)) (ht : ∀ ea rest, body = .events ea rest →
      Turns x m (a + 4) (Body.bytes o.flip t (.events ea rest)) ()) :
    Turns (if t = PmType.event then x else swapValue (a + 4) (blockWidth t)) m (a + 4)
      (body.bytes o.flip t) () := by
  cases body
  case raw l =>
    rw [if_neg (by simp [he, Body.isEvents])]
    exact swapValue_turns h <| by simpa [Body.bytes] using hw
  case events ea rest =>
    rw [if_pos (he.mpr rfl)]
    exact ht ea rest rfl

namespace Hton

theorem eventArray_turns
    (h : Holds m (a + 4) (Body.bytes .host t (.events ea rest))) :
    Turns (eventArray a) m (a + 4) (Body.bytes .network t (.events ea rest)) () := by
  have ⟨hn, hr⟩ := Holds.append.mp h
  simp only [Order.put_length, le_length, Nat.cast_ofNat, add_assoc] at hr
  refine .bind_read (Order.word_loadInt hn) rfl ?_
  have ht := Turns.walk (by simp [Record.bytes_length]) (fun r _ _ => record_turns r)
    (Holds.append.mp hr).left
  have ht := Turns.append hr ht <| by simp [Record.bytes_length]
  have hn := ht.beside hn <| .inl <| by simp; omega
  exact ea.count ▸ ht.bind_front (Order.swap_turns hn rfl) (by simp; omega)

theorem valueBlock_turns {b : Block} (hb : b.Fits) (h : Holds m a (b.bytes .host)) :
    Turns (valueBlock a) m a (b.bytes .network) () := by
  have ⟨hh, hv⟩ := Holds.append.mp h
  refine .bind_read (header_vtype hh) rfl ?_
  have ht := vbuf_turns b.event hb hv fun _ _ he => eventArray_turns (he ▸ hv)
  exact ht.bind_front (Order.swap_turns (ht.beside hh (by simp)) rfl) (by simp)

end Hton

namespace Ntoh

theorem eventArray_turns
    (h : Holds m (a + 4) (Body.bytes .network t (.events ea rest))) :
    Turns (eventArray a) m (a + 4) (Body.bytes .host t (.events ea rest)) () := by
  refine Order.next_word h (b := a + 8) (by omega) fun hr => ?_
  refine .bind_read (Order.word_loadInt (Order.word_turns h).holds) rfl ?_
  have ht := Turns.walk (by simp [Record.bytes_length]) (fun r _ _ => record_turns r)
    (Holds.append.mp hr).left
  have ht := Turns.append hr ht <| by simp [Record.bytes_length]
  simpa [ea.count] using ht.bind (f := fun _ => pure ()) (.pure .nil) rfl

theorem valueBlock_turns {b : Block} (hb : b.Fits) (h : Holds m a (b.bytes .network)) :
    Turns (valueBlock a) m a (b.bytes .host) () := by
  have ht := Order.swap_turns (Holds.append.mp h).left rfl
  refine .next h ht (by simp) (b := a + 4) (by simp) fun h => ?_
  refine .bind_read (header_vtype ht.holds) rfl ?_
  exact vbuf_turns b.event hb h fun _ _ he => eventArray_turns (he ▸ h)

end Ntoh

end PduResult
