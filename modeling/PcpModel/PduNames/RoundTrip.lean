import Mathlib.Algebra.Order.BigOperators.Group.List
import Mathlib.Data.List.TakeWhile
import PcpModel.PduNames.Bounds
import PcpModel.PduResult.RoundTrip

-- Which names the decoder gives back.
namespace PduNames

open Memory Decoder List CInt NameList Pcp
open PduResult (hdrLenOf htonl htonl_ofWord htonl_int32 le_hdrLenOf needMax needMax_le
  pduSizeBytes)

variable {m : Bytes} {statuslist : Bool} {n : Name}

section Record

variable {len : Int} {layout : Layout} {numnames : Nat} {nstrbytes : Int} {s : Pos} {ns : List Name}

theorem Name.bytes_length (n : Name) (layout : Layout) :
    (n.bytes layout).length = layout.head + pduSizeBytes n.name.length := by
  have : n.name.length ≤ pduSizeBytes n.name.length := by unfold pduSizeBytes; omega
  cases layout <;> simp [bytes, pad, Layout.head] <;> omega

theorem string_image (h : Holds m a l) (h₀ : 0 ∉ l) : string m a l.length = l := by
  have hl : ((range l.length).map fun k => m (a + (k : Nat))) = l := by
    refine ext_getElem (by simp) fun i _ hi => ?_
    simpa using h i hi
  rw [string, hl, takeWhile_eq_self_iff]
  intro b hb
  simpa using ne_of_mem_of_not_mem hb h₀

theorem namelenAt_image (h : Holds m s.np (n.bytes layout)) (hn : n.name.length < 2 ^ 31) :
    namelenAt m layout s = n.name.length ∧ Holds m (s.np + layout.head) n.name := by
  cases layout
  case name =>
    simp only [Name.bytes, Holds.append] at h
    refine ⟨?_, h.right.left⟩
    have hl := htonl_ofWord h.left (by omega) (by omega)
    rw [namelenAt, lengthAt, show s.np + Layout.name.head - 4 = s.np by simp [Layout.head]]
    exact hl
  case nameStatus =>
    simp only [Name.bytes, Holds.append] at h
    refine ⟨?_, h.right.left⟩
    have hl := htonl_ofWord h.left.right (by omega) (by omega)
    rw [namelenAt, lengthAt,
      show s.np + Layout.nameStatus.head - 4 = s.np + 4 by simp [Layout.head]; omega]
    exact hl

def Name.decoded (statuslist : Bool) (layout : Layout) (n : Name) : Name :=
  if layout = .nameStatus ∧ statuslist then n else { n with status := 0 }

@[simp]
theorem Name.decoded_name (statuslist : Bool) (layout : Layout) (n : Name) :
    (n.decoded statuslist layout).name = n.name := by
  unfold decoded
  split <;> rfl

theorem decodeStatus_image (h : Holds m s.np (n.bytes layout)) :
    (decodeStatus statuslist layout numnames s m).val =
      .ok (n.decoded statuslist layout).status := by
  rw [decodeStatus, Name.decoded]
  split
  case isFalse => rfl
  case isTrue hl =>
    obtain ⟨rfl, -⟩ := hl
    simp only [Name.bytes, Holds.append] at h
    rw [ntohl, read_bind_val, htonl_int32 h.left.left, Int32.ofInt_toInt]
    rfl

def strbytes (ns : List Name) : Nat :=
  (ns.map fun n => n.name.length + 1).sum

structure Remains (m : Bytes) (len : Int) (layout : Layout) (numnames : Nat) (nstrbytes : Int)
    (rest : Nat) (s : Pos) (ns : List Name) : Prop where
  names : Holds m s.np (ns.flatMap (·.bytes layout))
  terminated : ∀ n ∈ ns, 0 ∉ n.name
  offset : 0 ≤ s.j
  source : s.np + (ns.flatMap (·.bytes layout)).length + rest = len
  dest : s.dest + strbytes ns ≤ namesize numnames nstrbytes
  last : ∀ n ∈ ns.getLast?, n.name ≠ [] ∨ 4 ≤ rest

theorem Remains.room (h : Remains m len layout numnames nstrbytes rest s (n :: ns)) :
    4 ≤ pduSizeBytes n.name.length + (ns.flatMap (·.bytes layout)).length + rest := by
  cases ns
  case nil =>
    rcases h.last n rfl with hn | hr
    · have := length_pos_iff.mpr hn
      unfold pduSizeBytes
      omega
    · omega
  case cons n' ns =>
    have hb := layout.head_bounds
    rw [flatMap_cons, length_append, n'.bytes_length]
    omega

theorem Remains.fits (h : Remains m len layout numnames nstrbytes rest s (n :: ns))
    (hl : len ≤ intMax) : Fits m len layout numnames nstrbytes s ∧
      namelenAt m layout s = n.name.length ∧ Holds m (s.np + layout.head) n.name := by
  have hr := h.room
  have hs := h.source
  have hd := h.dest
  have hj := h.offset
  have hn : n.name.length ≤ pduSizeBytes n.name.length := by unfold pduSizeBytes; omega
  rw [flatMap_cons, length_append, n.bytes_length] at hs
  rw [strbytes, map_cons, sum_cons] at hd
  simp only [intMax, Pos.np] at hl hs
  have hi := namelenAt_image (Holds.append.mp h.names).left (by omega)
  have hsz : size (len - s.np) = len - s.np := by
    apply size_eq <;> unfold Pos.np <;> omega
  refine ⟨⟨?_, ?_, ?_⟩, hi⟩
  case refine_1 =>
    rw [hsz, Pos.np]
    omega
  case refine_2 =>
    rw [hsz, hi.left, size_eq (by omega) (by omega), Pos.np]
    omega
  case refine_3 =>
    rw [hi.left, int_eq (by omega) (by simp only [intMax]; omega)]
    omega

theorem Remains.next (h : Remains m len layout numnames nstrbytes rest s (n :: ns))
    (hl : len ≤ intMax) :
    Remains m len layout numnames nstrbytes rest (s.next m layout) ns := by
  obtain ⟨-, hn, -⟩ := h.fits hl
  have hs := h.source
  have hd := h.dest
  have hj := h.offset
  have hb := n.bytes_length layout
  rw [flatMap_cons, length_append] at hs
  rw [strbytes, map_cons, sum_cons] at hd
  simp only [intMax, Pos.np] at hl hs
  have hj' : (s.next m layout).j = s.j + (n.bytes layout).length := by
    simp only [Pos.next, hn, Int.toNat_natCast]
    rw [int_eq (by omega) (by simp only [intMax]; omega)]
    omega
  have hp : (s.next m layout).np = s.np + (n.bytes layout).length := by
    rw [Pos.np, hj', Pos.np, add_assoc]
  constructor
  case names => exact hp ▸ (Holds.append.mp h.names).right
  case terminated => exact fun n' hn' => h.terminated n' (mem_cons_of_mem n hn')
  case offset => omega
  case source => rw [Pos.np]; omega
  case dest => simp only [Pos.next, strbytes]; omega
  case last => exact fun n' hn' => h.last n' (mem_getLast?_cons hn')

theorem Remains.step (hl : len ≤ intMax) (s : Pos) (n : Name) (ns : List Name)
    (h : Remains m len layout numnames nstrbytes rest s (n :: ns)) :
    ∃ s', (decodeName len statuslist layout numnames nstrbytes s m).val =
      .ok (n.decoded statuslist layout, s') ∧
      Remains m len layout numnames nstrbytes rest s' ns := by
  obtain ⟨hf, hn, hh⟩ := h.fits hl
  refine ⟨s.next m layout, ?_, h.next hl⟩
  rw [decodeName_val hf (decodeStatus_image (Holds.append.mp h.names).left), hn, Int.toNat_natCast,
    string_image hh (h.terminated n (by simp)), ← n.decoded_name statuslist layout]

end Record

section List

variable {l : NameList}

theorem NameList.names_name (l : NameList) : l.names.map (·.name) = l.namelist := by
  unfold names
  split
  case h_1 =>
    rw [map_map]
    exact map_id _
  case h_2 s hs =>
    have hl := l.parallel s hs
    refine ext_getElem (by simp [hl]) fun i _ _ => ?_
    simp

theorem NameList.names_status (l : NameList) (hs : l.statuslist = some s) :
    l.names.map (·.status) = s := by
  have hl := l.parallel s hs
  simp only [names, hs]
  refine ext_getElem (by simp [hl]) fun i _ _ => ?_
  simp

theorem NameList.names_length (l : NameList) : l.names.length = l.namelist.length := by
  rw [← l.names_name, length_map]

theorem strbytes_names (l : NameList) : strbytes l.names = l.nstrbytes := by
  simp only [nstrbytes, ← l.names_name, map_map]
  rfl

theorem need_eq (l : NameList) : l.need = 24 + (l.names.flatMap (·.bytes l.layout)).length := by
  simp only [need, ← l.names_name, map_map, length_flatMap, Name.bytes_length]
  congr 3
  exact add_comm ..

structure Image (l : NameList) (m : Bytes) : Prop where
  len : hdrLenOf m = l.need
  nstrbytes : nstrbytesOf m = l.nstrbytes
  numstatus : numstatusOf m = l.numstatus
  numnames : numnamesOf m = l.namelist.length
  names : Holds m 24 (l.names.flatMap (·.bytes l.layout))

theorem NameList.length_le (l : NameList) : l.namelist.length ≤ l.nstrbytes := by
  have h := card_nsmul_le_sum (l.namelist.map fun n => n.length + 1) 1 (by simp)
  rwa [length_map, nsmul_eq_mul, mul_one] at h

theorem NameList.nstrbytes_le (l : NameList) : 24 + l.nstrbytes ≤ l.need := by
  have hb := l.layout.head_bounds
  refine Nat.add_le_add_left (sum_le_sum fun n _ => ?_) 24
  unfold pduSizeBytes
  omega

theorem NameList.numstatus_le (l : NameList) : 8 * l.numstatus ≤ l.need := by
  unfold numstatus
  split
  case h_1 => omega
  case h_2 hl =>
    have h := card_nsmul_le_sum (l.namelist.map fun n => pduSizeBytes n.length + l.layout.head)
      8 (by simp [hl, Layout.head])
    rw [length_map, nsmul_eq_mul, Nat.cast_id] at h
    unfold need
    omega

theorem sendNameList_image (hs : sendNameList l source = some bytes) (h : Holds m 0 bytes) :
    Image l m := by
  have hn := l.nstrbytes_le
  have hl := l.length_le
  have hs' := l.numstatus_le
  rw [sendNameList, Option.ite_none_right_eq_some, Option.some.injEq] at hs
  obtain ⟨hi, rfl⟩ := hs
  simp only [needMax, intMax] at hi
  simp only [Holds.append] at h
  obtain ⟨⟨⟨⟨⟨⟨hlen, -⟩, -⟩, hstr⟩, hst⟩, hnum⟩, hh⟩ := h
  constructor
  case len => exact le_hdrLenOf hlen (by omega)
  case nstrbytes => exact htonl_ofWord hstr (by omega) (by omega)
  case numstatus => exact htonl_ofWord hst (by omega) (by omega)
  case numnames => exact htonl_ofWord hnum (by omega) (by omega)
  case names => exact hh

def Plausible (l : NameList) : Prop :=
  l.namelist.length < (CInt.intMax - l.nstrbytes) / 8

instance : Decidable (Plausible l) :=
  inferInstanceAs (Decidable (_ < _))

theorem Image.header (h : Image l m) : 24 ≤ hdrLenOf m := by
  have := l.nstrbytes_le
  rw [h.len]
  omega

theorem Image.signs (h : Image l m) : 0 ≤ numnamesOf m ∧ 0 ≤ nstrbytesOf m := by
  rw [h.numnames, h.nstrbytes]
  omega

theorem Image.limits (h : Image l m) : numnamesOf m ≤ hdrLenOf m ∧ nstrbytesOf m ≤ hdrLenOf m := by
  have hs := l.nstrbytes_le
  have hl := l.length_le
  rw [h.len, h.numnames, h.nstrbytes]
  omega

theorem Image.numnames_zero (h : Image l m) : numnamesOf m = 0 ↔ l.namelist = [] := by
  rw [h.numnames, Nat.cast_eq_zero, length_eq_zero_iff]

theorem Image.numstatus_eq (h : Image l m) :
    numstatusOf m = 0 ∨ numstatusOf m = numnamesOf m := by
  rw [h.numstatus, h.numnames, NameList.numstatus]
  split
  case h_1 => exact .inl rfl
  case h_2 => exact .inr rfl

theorem Image.accepted (h : Image l m) (hn : l.need ≤ intMax) (hp : Plausible l)
    (h₀ : l.namelist ≠ []) : Accepted m statuslist where
  header := h.header
  nonempty := h.numnames_zero.not.mpr h₀
  signs := h.signs
  limits := h.limits
  numstatus := h.numstatus_eq
  namesize := by rw [h.numnames, h.nstrbytes]; exact hp
  statussize := by
    have hs := l.numstatus_le
    simp only [h.numstatus, intMax] at hn ⊢
    omega

theorem Image.layout (h : Image l m) (h₀ : l.namelist ≠ []) :
    layoutOf (numstatusOf m) = l.layout := by
  have := length_pos_iff.mpr h₀
  rw [h.numstatus, NameList.numstatus]
  cases hl : l.layout
  case name => rfl
  case nameStatus => exact if_neg (by simp only; omega)

theorem decodeNameList_refuses (h : Image l m) (h₀ : l.namelist ≠ []) (hp : ¬Plausible l) :
    (decodeNameList statuslist m).val = .error pmErrIpc := by
  have hp : ¬numnamesOf m < (intMax - nstrbytesOf m) / 8 := by
    rw [h.numnames, h.nstrbytes]
    exact hp
  rw [decodeNameList_val h.header, decodeRecords, if_neg (h.numnames_zero.not.mpr h₀),
    require_bind_val h.signs, require_bind_val h.limits, require_bind_val h.numstatus_eq,
    require_bind_val_not hp]

theorem Image.remains (h : Image l m) (hr : ns ++ ns' = l.names)
    (hlast : ∀ n ∈ ns.getLast?, n.name ≠ [] ∨ 4 ≤ (ns'.flatMap (·.bytes l.layout)).length) :
    Remains m l.need l.layout l.namelist.length l.nstrbytes
      (ns'.flatMap (·.bytes l.layout)).length (first l.namelist.length) ns := by
  have hn := need_eq l
  have hs := strbytes_names l
  have hh := h.names
  rw [← hr, flatMap_append] at hn hh
  rw [← hr, strbytes, map_append, sum_append] at hs
  rw [length_append] at hn
  constructor
  case names => exact (Holds.append.mp hh).left
  case terminated =>
    intro n hn
    exact l.terminated _ (l.names_name ▸ mem_map_of_mem (hr ▸ mem_append_left _ hn))
  case offset => exact le_rfl
  case source => simp only [first, Pos.np]; omega
  case dest => simp only [first, namesize, strbytes]; omega
  case last => exact hlast

def NameList.decoded (statuslist : Bool) (l : NameList) : Decoded where
  namelist := l.namelist
  statuslist := if statuslist then l.statuslist else none

theorem decoded_statuslist (h₀ : l.namelist ≠ []) :
    (if statuslist ∧ (l.numstatus : Int) > 0 then
      some ((l.names.map (·.decoded statuslist l.layout)).map (·.status)) else none) =
    (l.decoded statuslist).statuslist := by
  have := length_pos_iff.mpr h₀
  cases hs : l.statuslist
  case none => simp [decoded, numstatus, layout, hs]
  case some st =>
    have hl : l.layout = .nameStatus := by simp [layout, hs]
    have hn : (l.numstatus : Int) > 0 := by
      rw [numstatus, hl]
      exact_mod_cast this
    cases statuslist
    case false => rfl
    case true =>
      rw [if_pos ⟨rfl, hn⟩, decoded, if_pos rfl, hs, ← l.names_status hs, map_map, hl]
      rfl

theorem decodeNameList_image (h : Image l m) (hn : l.need ≤ intMax) (hp : Plausible l)
    (h₀ : l.namelist ≠ []) (hl : ∀ n ∈ l.namelist.getLast?, n ≠ []) :
    (decodeNameList statuslist m).val = .ok (l.decoded statuslist) := by
  have hlast : ∀ n ∈ l.names.getLast?, n.name ≠ [] := by
    intro n hn
    refine hl n.name ?_
    rw [← l.names_name, getLast?_map]
    exact Option.mem_map_of_mem _ hn
  have hr : Remains m l.need l.layout l.namelist.length l.nstrbytes 0 (first l.namelist.length)
      l.names := h.remains (append_nil _) fun n hn => .inl (hlast n hn)
  obtain ⟨s', hs, -⟩ := records_val (Remains.step hn) hr
  rw [l.names_length] at hs
  rw [decodeNameList_accepted (h.accepted hn hp h₀), decodeNameOf, h.layout h₀, h.len, h.numnames,
    h.nstrbytes, Int.toNat_natCast, hs, Except.map, h.numstatus, decoded_statuslist h₀,
    map_map]
  congr 2
  rw [← l.names_name]
  exact map_congr_left fun n _ => n.decoded_name statuslist l.layout

-- There is nothing left where the decoder expects four bytes, at least, of a name.
theorem decodeNameList_last (h : Image l m) (hn : l.need ≤ intMax) (hp : Plausible l)
    (hl : [] ∈ l.namelist.getLast?) : (decodeNameList statuslist m).val = .error pmErrIpc := by
  have h₀ : l.namelist ≠ [] := by
    rintro h₀
    simp [h₀] at hl
  rw [← l.names_name, getLast?_map, Option.mem_map] at hl
  obtain ⟨n, hm, hname⟩ := hl
  have hb := l.layout.head_bounds
  have hlen : ([n].flatMap (·.bytes l.layout)).length = l.layout.head := by
    simp [n.bytes_length, hname, pduSizeBytes]
  have hr := h.remains (dropLast_append_getLast? n hm) fun _ _ => .inr (by rw [hlen]; omega)
  obtain ⟨s', hs, hr'⟩ := records_val (Remains.step hn) hr
  have hf : ¬Fits m l.need l.layout l.namelist.length l.nstrbytes s' := by
    intro hf
    have hd := hf.head
    have hs := hr'.source
    rw [hlen, flatMap_nil, length_nil, Nat.cast_zero, add_zero] at hs
    rw [size_eq (by omega) (by omega)] at hd
    omega
  have he : (decodeNameOf m statuslist s' m).val = .error pmErrIpc := by
    rw [decodeNameOf, h.layout h₀, h.len, h.numnames, h.nstrbytes, Int.toNat_natCast]
    exact decodeName_error hf
  have hk : l.names.dropLast.length < l.namelist.length := by
    have := length_pos_iff.mpr h₀
    rw [length_dropLast, l.names_length]
    omega
  have hre : s' ∈ reach (decodeNameOf m statuslist) m (first (numnamesOf m).toNat)
      l.names.dropLast.length := by
    rw [decodeNameOf, h.layout h₀, h.len, h.numnames, h.nstrbytes, Int.toNat_natCast]
    exact reach_of_records hs
  rw [decodeNameList_accepted (h.accepted hn hp h₀), records_error (by rwa [h.numnames]) hre he]
  rfl

def Returns (statuslist : Bool) (l : NameList) (source : UInt32) : Prop :=
  ∃ bytes, sendNameList l source = some bytes ∧ ∀ m, Holds m 0 bytes →
    ∃ d, (decodeNameList statuslist m).val = .ok d ∧ d.namelist = l.namelist ∧
      (statuslist → d.statuslist.getD [] = l.statuslist.getD [])

theorem decodeNameList_sendNameList (statuslist : Bool) (l : NameList) (source : UInt32) :
    Returns statuslist l source ↔ l.need ≤ needMax ∧
      (∀ n ∈ l.namelist.getLast?, n ≠ []) ∧ (l.namelist ≠ [] → Plausible l) := by
  constructor
  case mp =>
    intro ⟨bytes, hs, h⟩
    have hn : l.need ≤ needMax := (Option.ite_none_right_eq_some.mp hs).left
    obtain ⟨d, hv, -⟩ := h (write (fun _ => 0) 0 bytes) .write
    have hi := sendNameList_image hs (m := write (fun _ => 0) 0 bytes) .write
    have hp : l.namelist ≠ [] → Plausible l := by
      intro h₀
      by_contra hp
      rw [decodeNameList_refuses hi h₀ hp] at hv
      cases hv
    refine ⟨hn, ?_, hp⟩
    rintro _ hm rfl
    have hp' := hp (ne_nil_of_mem (mem_of_getLast? hm))
    rw [decodeNameList_last hi (hn.trans needMax_le) hp' hm] at hv
    cases hv
  case mpr =>
    intro ⟨hn, hl, hp⟩
    refine ⟨_, if_pos hn, fun m h => ?_⟩
    have hi := sendNameList_image (if_pos hn) h
    by_cases h₀ : l.namelist = []
    case pos =>
      have he : (decodeNameList statuslist m).val = .ok ⟨[], none⟩ := by
        rw [decodeNameList_val hi.header, decodeRecords, if_pos (hi.numnames_zero.mpr h₀), pure_val]
      refine ⟨_, he, h₀.symm, fun _ => ?_⟩
      cases hs : l.statuslist
      case none => rfl
      case some st => simpa [h₀, eq_comm] using l.parallel st hs
    case neg =>
      refine ⟨_, decodeNameList_image hi (hn.trans needMax_le) (hp h₀) h₀ hl, rfl, ?_⟩
      rintro rfl
      rfl

def oneEmpty : NameList where
  namelist := [[]]
  statuslist := none
  parallel := by simp
  terminated := by simp

theorem decodeNameList_sendNameList_not : ∃ bytes, sendNameList oneEmpty 99 = some bytes ∧
    ∀ m, Holds m 0 bytes → (decodeNameList true m).val = .error pmErrIpc :=
  ⟨_, if_pos (by decide), fun _ h =>
    decodeNameList_last (sendNameList_image (if_pos (by decide)) h) (by decide) (by decide) rfl⟩

end List

end PduNames
