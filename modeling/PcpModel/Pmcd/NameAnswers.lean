import PcpModel.Pmcd.NameRequests

namespace Pmcd.Names

open List Option Pcp

theorem elements_length : elements a a.length = some a := by
  simp [elements]

theorem elements_neg (h : n < 0) : elements a n = some [] := by
  have h₀ : n.toNat = 0 := by omega
  simp [elements, h₀]

theorem sendNameList_eq
    (hs : ∀ a ∈ status, a.length = (l.getD []).length) :
    ∃ p, sendNameList (l.getD []).length l status = some p ∧ p.WellFormed := by
  refine ⟨.names (l.getD []).length (l.getD []) status, ?_, rfl, hs⟩
  cases status
  case none => simp [sendNameList, elements_length]
  case some a =>
    have ha : elements a (l.getD []).length = some a := hs a rfl ▸ elements_length
    simp [sendNameList, elements_length, ha]

theorem sendNameList_neg (l : Option (List Name)) (status : Option (List Int)) (hn : n < 0) :
    ∃ p, sendNameList n l status = some p ∧ ¬p.WellFormed := by
  refine ⟨.names n [] (status.map fun _ => []), ?_, fun h => ?_⟩
  · cases status <;> simp [sendNameList, elements_neg hn]
  · have := h.left
    omega

theorem sendNameList_null (hn : 0 < n) : sendNameList n none status = none := by
  have : ¬n.toNat ≤ 0 := by omega
  simp [sendNameList, elements, this]

namespace Agents

variable (ag : Agents)

-- The daemon that is asked for names replies with names, or with the error 0.
def Supplies : Prop :=
  0 ≤ ag.send 0 ∧ ((∃ l, ag.reply 0 = .names (.ok l)) ∨ ag.reply 0 = .error 0)

-- The daemon replies with an error that is not negative.
def Misreports : Prop :=
  0 ≤ ag.send 0 ∧ ∃ code, ag.reply 0 = .error code ∧ 0 < code

def shipped : Shipped NameList :=
  ship ag 0 Reply.decodeNames

variable {ag}

theorem Supplies.shipped (h : ag.Supplies) :
    ag.shipped.sts = ((ag.shipped.data.bind (·.names)).getD []).length ∧
      ∀ a ∈ ag.shipped.data.bind (·.status),
        a.length = ((ag.shipped.data.bind (·.names)).getD []).length := by
  obtain ⟨hs, hr⟩ := h
  have hn : ¬ag.send 0 < 0 := by omega
  simp only [Agents.shipped, ship, hn]
  rcases hr with ⟨l, hr⟩ | hr <;> rw [hr]
  · exact ⟨rfl, (decodeNameList l).status_length⟩
  · exact ⟨rfl, by simp [Reply.decodeNames]⟩

theorem Misreports.shipped (h : ag.Misreports) : 0 < ag.shipped.sts ∧ ag.shipped.data = none := by
  obtain ⟨hs, code, hr, hc⟩ := h
  have hn : ¬ag.send 0 < 0 := by omega
  simp only [Agents.shipped, ship, hn, hr]
  exact ⟨hc, rfl⟩

theorem shipped_neg (h₁ : ¬ag.Supplies) (h₂ : ¬ag.Misreports) : ag.shipped.sts < 0 := by
  simp only [shipped, ship]
  split
  case isTrue h => exact mapErrno_neg h
  case isFalse h =>
    have hs : 0 ≤ ag.send 0 := by omega
    cases hr : ag.reply 0
    case names r =>
      cases r
      case ok l => exact absurd ⟨hs, .inl ⟨l, hr⟩⟩ h₁
      case error sts => exact sts.property
    case ids => exact show pmErrIpc < 0 by decide
    case other => exact show pmErrIpc < 0 by decide
    case error code =>
      show code < 0
      have h₁ : code ≠ 0 := fun hc => h₁ ⟨hs, .inr (hc ▸ hr)⟩
      have h₂ : ¬0 < code := fun hc => h₂ ⟨hs, code, hr, hc⟩
      omega

end Agents

namespace Server

variable {ns : NameSpace} {ag : Agents} {link : Link} {s s' s₁ : Server}

-- The client gets a PDU, or is cleaned up if that fails.
def Gets (s : Server) (link : Link) (p : Pdu) (s' : Server) : Prop :=
  s'.client = if link p < 0 then s.cleanupClient.client else (s.deliver p).client

-- An error is returned, or a reply has been sent.
def Handled (s : Server) (link : Link) (r : Option (Int × Server)) : Prop :=
  ∃ sts s', r = some (sts, s') ∧
    (sts < 0 ∧ s'.client = s.client ∨
      ∃ p : Pdu, p.WellFormed ∧ sts = link p ∧ s.Gets link p s')

theorem handled_error (h : sts < 0) (hc : s'.client = s.client) : s.Handled link (some (sts, s')) :=
  ⟨sts, s', rfl, .inl ⟨h, hc⟩⟩

theorem reply_handled (hp : p.WellFormed) (hc : s'.client = s.client) :
    s.Handled link (some (s'.reply link p)) := by
  refine ⟨link p, (s'.reply link p).2, ?_, .inr ⟨p, hp, rfl, ?_⟩⟩
  · rw [reply]
    split <;> rfl
  · rw [Gets, reply]
    split <;> simp [cleanupClient, deliver, hc]

theorem replyNames_handled
    (hs : ∀ a ∈ status, a.length = (l.getD []).length) (hc : s'.client = s.client) :
    s.Handled link (s'.replyNames link (l.getD []).length l status) := by
  obtain ⟨p, hp, hw⟩ := sendNameList_eq hs
  rw [replyNames, hp]
  exact reply_handled hw hc

theorem shipTo_fst : (s.shipTo ag 0 k Reply.decodeNames).1 = ag.shipped :=
  rfl

theorem shipTo_client {expected : Reply → Option (Except Failure (Int × α))} :
    (s.shipTo ag i k expected).2.client = s.client := by
  simp only [shipTo]
  split <;> rfl

theorem resolve_client {id : Nat} : (s.resolve ag i sts id).2.2.client = s.client := by
  simp only [resolve]
  split
  case isFalse => rfl
  case isTrue =>
    cases s.connectedAgent (cluster id)
    case none => rfl
    case some a =>
      dsimp only
      split
      case isTrue => split <;> rfl
      case isFalse =>
        split
        case isTrue => rfl
        case isFalse => exact shipTo_client

theorem resolveAll_eq (ag : Agents) (i : Nat) (sts : Int) (s : Server) (ids : List Nat) :
    (resolveAll ag i sts s ids).2.1.length = ids.length ∧
      (resolveAll ag i sts s ids).2.2.client = s.client := by
  induction ids generalizing i sts s
  case nil => exact ⟨rfl, rfl⟩
  case cons id ids hi =>
    simp only [resolveAll, length_cons]
    have h := hi (i + 1) (s.resolve ag i sts id).1 (s.resolve ag i sts id).2.2
    exact ⟨by rw [h.left], h.right.trans resolve_client⟩

theorem doPMNSNames_handled : s.Handled link (s.doPMNSNames ns ag link r) := by
  cases r
  case error sts => exact handled_error sts.property rfl
  case ok names =>
    obtain ⟨hl, hc⟩ := resolveAll_eq ag 0 (ns.lookupName names).1 s (ns.lookupName names).2
    rw [ns.lookup_length] at hl
    simp only [doPMNSNames]
    split
    case isTrue h => exact handled_error h.left hc
    case isFalse => exact reply_handled (by simp [Pdu.WellFormed, hl]) hc

-- An answer is one proper PDU.
def Answered (s : Server) (link : Link) (s' : Server) : Prop :=
  ∃ p : Pdu, p.WellFormed ∧ s.Gets link p s'

-- There is no answer, or one that is not a proper PDU.
def Mishandled (s : Server) (r : Option (Int × Server)) : Prop :=
  r = none ∨ ∃ sts s', r = some (sts, s') ∧ 0 ≤ sts ∧
    (s'.client = s.client ∨ ∃ p : Pdu, ¬p.WellFormed ∧ s'.client = (s.deliver p).client)

theorem replyNames_mishandled
    (hl : ∀ p, 0 ≤ link p) (hn : n < 0) (hc : s'.client = s.client) :
    s.Mishandled (s'.replyNames link n l status) := by
  obtain ⟨p, hp, hw⟩ := sendNameList_neg l status hn
  have hlp : ¬link p < 0 := by have := hl p; omega
  refine .inr ⟨link p, s'.deliver p, ?_, hl p, .inr ⟨p, hw, ?_⟩⟩
  · simp [replyNames, hp, reply, hlp]
  · simp [deliver, hc]

def IdsFit (ns : NameSpace) (ag : Agents) (s : Server) (pmid : Nat) : Prop :=
  ∀ sts, ns.nameAll pmid = .error sts → ∀ ap k, s.connectedAgent (domain pmid) = some (ap, k) →
    ¬ap.isDso → ¬ap.notReady → ¬ag.Misreports

theorem doPMNSIDs_handled (hf : s.IdsFit ns ag pmid) :
    s.Handled link (s.doPMNSIDs ns ag link (.ok pmid)) := by
  simp only [doPMNSIDs]
  cases hn : ns.nameAll pmid
  case ok l => exact replyNames_handled (l := some l) (by simp) rfl
  case error sts =>
    cases ha : s.connectedAgent (domain pmid)
    case none => exact handled_error (by decide) rfl
    case some a =>
      obtain ⟨ap, k⟩ := a
      dsimp only
      split
      case isTrue =>
        split
        case isTrue =>
          cases ag.name 0
          case error sts => exact handled_error sts.property rfl
          case ok l => exact replyNames_handled (by simp) rfl
        case isFalse => exact handled_error (by decide) rfl
      case isFalse hdso =>
        split
        case isTrue => exact handled_error (by decide) rfl
        case isFalse hready =>
          split
          case isTrue h => exact handled_error h shipTo_client
          case isFalse h =>
            have hs : ag.Supplies := by
              by_contra hs
              exact h (Agents.shipped_neg hs (hf sts hn ap k ha hdso hready))
            rw [shipTo_fst, hs.shipped.left]
            exact replyNames_handled (by simp) shipTo_client

theorem doPMNSIDs_mishandled (hf : ¬s.IdsFit ns ag pmid) :
    s.Mishandled (s.doPMNSIDs ns ag link (.ok pmid)) := by
  simp only [IdsFit, not_forall] at hf
  obtain ⟨sts, hn, ap, k, ha, hdso, hready, hm⟩ := hf
  obtain ⟨hpos, hdata⟩ := (not_not.mp hm).shipped
  have hneg : ¬ag.shipped.sts < 0 := by omega
  refine .inl ?_
  simp only [doPMNSIDs, hn, ha, hdso, hready,
    shipTo_fst, hneg, hdata]
  simp [replyNames, sendNameList_null hpos]

def ChildFit (ns : NameSpace) (ag : Agents) (s : Server) (name : Name) : Prop :=
  ns.lookupStatus name = 1 → IsDynamic (ns.lookupId name) →
    ∀ ap k, s.connectedAgent (cluster (ns.lookupId name)) = some (ap, k) →
      ¬ap.isDso → ¬ap.notReady ∧ ag.Supplies

theorem status_length_of_subtype {l : NameList} {subtype : Int} :
    ∀ a ∈ (if subtype = 0 then none else l.status), a.length = (l.names.getD []).length := by
  split
  · simp
  · exact l.status_length

theorem doPMNSChild_handled (hf : s.ChildFit ns ag name) :
    s.Handled link (s.doPMNSChild ns ag link (.ok (name, subtype))) := by
  simp only [doPMNSChild]
  split
  case isTrue hd =>
    simp only [dynamicChildren]
    cases ha : s.connectedAgent (cluster (ns.lookupId name))
    case none => exact handled_error (by decide) rfl
    case some a =>
      obtain ⟨ap, k⟩ := a
      dsimp only
      split
      case isTrue =>
        split
        case isTrue =>
          cases ag.children 0
          case error sts => exact handled_error sts.property rfl
          case ok l => exact replyNames_handled status_length_of_subtype rfl
        case isFalse => exact handled_error (by decide) rfl
      case isFalse hdso =>
        obtain ⟨hready, hs⟩ := hf hd.left hd.right ap k ha hdso
        rw [if_neg hready]
        rw [shipTo_fst, hs.shipped.left]
        refine replyNames_handled ?_ shipTo_client
        split
        · simp
        · exact hs.shipped.right
  case isFalse =>
    cases hc : ns.children name
    case error sts => exact handled_error sts.property rfl
    case ok l =>
      refine replyNames_handled ?_ rfl
      split
      · simp
      · simpa using ns.children_length name l hc

theorem doPMNSChild_mishandled (hl : ∀ p, 0 ≤ link p) (hf : ¬s.ChildFit ns ag name) :
    s.Mishandled (s.doPMNSChild ns ag link (.ok (name, subtype))) := by
  simp only [ChildFit, not_forall] at hf
  obtain ⟨h₁, hd, ap, k, ha, hdso, hf⟩ := hf
  simp only [doPMNSChild, dynamicChildren, h₁, hd, ha, hdso, and_self, if_true, if_false,
    Bool.false_eq_true]
  split
  case isTrue => exact replyNames_mishandled hl (by decide) rfl
  case isFalse hready =>
    have hs : ¬ag.Supplies := fun hs => hf ⟨hready, hs⟩
    rw [shipTo_fst]
    by_cases hm : ag.Misreports
    · obtain ⟨hpos, hdata⟩ := hm.shipped
      refine .inl ?_
      simp [replyNames, hdata, sendNameList_null hpos]
    · exact replyNames_mishandled hl (Agents.shipped_neg hs hm) shipTo_client

theorem findIdx?_modify {l : List α} (hf : ∀ a, p (f a) = p a) :
    (l.modify k f).findIdx? p = l.findIdx? p := by
  induction l generalizing k
  case nil => simp
  case cons a l hi =>
    cases k
    case zero => simp [findIdx?_cons, hf]
    case succ => simp [findIdx?_cons, hi]

-- The agents that are cleaned up are daemons.
structure Cleans (s s' : Server) : Prop where
  client : s'.client = s.client
  dso : ∀ d ap k, ap.isDso →
    (s'.connectedAgent d = some (ap, k) ↔ s.connectedAgent d = some (ap, k))

theorem Cleans.refl : Cleans s s :=
  ⟨rfl, fun _ _ _ _ => .rfl⟩

theorem Cleans.trans (h₁ : Cleans s s₁) (h₂ : Cleans s₁ s') : Cleans s s' :=
  ⟨h₂.client.trans h₁.client, fun d ap k hd => (h₂.dso d ap k hd).trans (h₁.dso d ap k hd)⟩

theorem connectedAgent_iff : s.connectedAgent d = some (ap, k) ↔
    s.findDomainAgent d = some k ∧ s.agent[k]? = some ap ∧ ap.connected := by
  simp [connectedAgent, bind_eq_some_iff]

theorem cleanupAgent_cleans (ha : s.connectedAgent d = some (ap, k)) (hd : ¬ap.isDso) :
    Cleans s (s.cleanupAgent k) := by
  refine ⟨rfl, fun d' ap' k' hd' => ?_⟩
  have hf : (s.cleanupAgent k).findDomainAgent d' = s.findDomainAgent d' :=
    findIdx?_modify fun _ => rfl
  have hk := (connectedAgent_iff.mp ha).right.left
  rw [connectedAgent_iff, connectedAgent_iff, hf, cleanupAgent, getElem?_modify]
  by_cases he : k = k'
  · subst he
    simp only [hk]
    constructor
    all_goals
      rintro ⟨_, h, _⟩
      cases h
      contradiction
  · simp [he]

theorem shipTo_cleans {expected : Reply → Option (Except Failure (Int × α))}
    (ha : s.connectedAgent d = some (ap, k)) (hd : ¬ap.isDso) :
    Cleans s (s.shipTo ag i k expected).2 := by
  simp only [shipTo]
  split
  · exact cleanupAgent_cleans ha hd
  · exact .refl

-- A DSO returns an empty array for a name, which vanishes.
def Vanishes (ns : NameSpace) (ag : Agents) (s : Server) (i : Nat) (name : Name) : Prop :=
  ¬ns.lookupStatus name < 1 ∧ IsDynamic (ns.lookupId name) ∧
    ∃ ap k l, s.connectedAgent (cluster (ns.lookupId name)) = some (ap, k) ∧
      ap.isDso ∧ 4 ≤ ap.pmdaInterface ∧ ag.children i = .ok l ∧ l.names = some []

theorem Cleans.vanishes_iff (h : Cleans s s') :
    s'.Vanishes ns ag i name ↔ s.Vanishes ns ag i name := by
  constructor
  all_goals
    rintro ⟨h₁, hd, ap, k, l, ha, hdso, hl⟩
    have hiff := h.dso (cluster (ns.lookupId name)) ap k hdso
    exact ⟨h₁, hd, ap, k, l, by tauto, hdso, hl⟩

theorem shipTo_names_ne :
    (s.shipTo ag i k Reply.decodeNames).1.data.elim .failed (.names ·.names) ≠
      Answer.names (some []) := by
  simp only [shipTo, ship]
  split
  case isTrue => simp
  case isFalse =>
    cases ag.reply i
    case names r =>
      cases r
      case ok l => exact mt Answer.names.inj (decodeNameList_ne l)
      case error => simp [Reply.decodeNames, Except.map]
    all_goals simp [Reply.decodeNames]

theorem expand_eq (ns : NameSpace) (ag : Agents) (s : Server) (i : Nat) (name : Name) :
    Cleans s (expand ns ag i name s).2 ∧
      ((expand ns ag i name s).1 = .names (some []) ↔ s.Vanishes ns ag i name) := by
  simp only [expand, Vanishes]
  split
  case isTrue h =>
    refine ⟨.refl, by simp, fun hv => ?_⟩
    exact absurd h (not_or.mpr ⟨hv.left, not_not.mpr hv.right.left⟩)
  case isFalse h =>
    obtain ⟨h₁, hd⟩ := not_or.mp h
    simp only [h₁, not_not.mp hd, not_false_eq_true, true_and]
    cases ha : s.connectedAgent (cluster (ns.lookupId name))
    case none => exact ⟨.refl, by simp⟩
    case some a =>
      obtain ⟨ap, k⟩ := a
      dsimp only
      split
      case isTrue hdso =>
        split
        case isTrue hi =>
          cases hc : ag.children i
          case error => exact ⟨.refl, by simp⟩
          case ok l => exact ⟨.refl, by simp [hdso, hi]⟩
        case isFalse hi =>
          refine ⟨.refl, by simp, ?_⟩
          rintro ⟨_, _, _, ⟨⟩, _, hi', _⟩
          contradiction
      case isFalse hdso =>
        have hn : ¬∃ ap' k' l, some (ap, k) = some (ap', k') ∧ ap'.isDso ∧ 4 ≤ ap'.pmdaInterface ∧
            ag.children i = .ok l ∧ l.names = some [] := by
          rintro ⟨_, _, _, ⟨⟩, hd', _⟩
          contradiction
        split
        case isTrue => exact ⟨.refl, by simp, fun h => absurd h hn⟩
        case isFalse =>
          exact ⟨shipTo_cleans ha hdso, fun h => absurd h shipTo_names_ne, fun h => absurd h hn⟩

def AllVanish (ns : NameSpace) (ag : Agents) (s : Server) (names : List Name) (n : Nat) : Prop :=
  ∀ i < n, ∀ name, names[i]? = some name → s.Vanishes ns ag i name

theorem allVanish_succ (h : n < names.length) :
    s.AllVanish ns ag names (n + 1) ↔ s.AllVanish ns ag names n ∧ s.Vanishes ns ag n names[n] := by
  constructor
  · intro ha
    exact ⟨fun i hi => ha i (by omega), ha n (by omega) _ (getElem?_eq_getElem h)⟩
  · rintro ⟨ha, hv⟩ i hi name hname
    by_cases he : i = n
    · subst he
      rw [getElem?_eq_getElem h] at hname
      cases hname
      exact hv
    · exact ha i (by omega) name hname

theorem Cleans.allVanish_iff (h : Cleans s s') (hn : ∀ i < n, names'[i]? = names[i]?) :
    s'.AllVanish ns ag names' n ↔ s.AllVanish ns ag names n := by
  refine forall_congr' fun i => forall_congr' fun hi => ?_
  simp [hn i hi, h.vanishes_iff]

-- The first names are gone iff all of them vanish, and the other ones stay.
theorem run_eq (ns : NameSpace) (ag : Agents) (s : Server) {t : Traversal} (h : t.Ok)
    (hn : t.names = l₁ ++ l) :
    ∃ t' s' l', t.run (expand ns ag) s l₁.length = some (t', s') ∧ Cleans s s' ∧
      (t'.fake → t.fake) ∧ t'.names = l' ++ l ∧
      (l' = [] ↔ s.AllVanish ns ag t.names l₁.length) := by
  induction l₁ using reverseRecOn generalizing t l s
  case nil => exact ⟨t, s, [], rfl, .refl, id, hn, by simp [AllVanish]⟩
  case append_singleton l₁ name hi =>
    rw [append_assoc, singleton_append] at hn
    have hlt : l₁.length < t.names.length := by simp [hn]
    have hg : t.names[l₁.length] = name := by simp [hn]
    obtain ⟨hc, hv⟩ := expand_eq ns ag s l₁.length name
    obtain ⟨t₁, he, h₁, hn₁, hf⟩ := h.stitch hn (expand ns ag l₁.length name s).1
    obtain ⟨t₂, s₂, l', he₂, hc₂, hf₂, hn₂, hl⟩ := hi (expand ns ag l₁.length name s).2 h₁ hn₁
    have hget : ∀ i < l₁.length, t₁.names[i]? = t.names[i]? := by
      intro i hi
      rw [hn₁, hn, getElem?_append_left hi, getElem?_append_left hi]
    refine ⟨t₂, s₂, l' ++ (expand ns ag l₁.length name s).1.stitched name, ?_, hc.trans hc₂,
      fun h => (hf.mp (hf₂ h)).left, by rw [hn₂, append_assoc], ?_⟩
    · rw [length_append, length_singleton, Traversal.run]
      simp [getElem?_eq_getElem hlt, hg, he, he₂]
    · rw [length_append, length_singleton, allVanish_succ hlt, append_eq_nil_iff, hl,
        hc.allVanish_iff hget, hg, ← hv, Answer.stitched_eq_nil]

theorem traverseDynamic_nil (ns : NameSpace) (ag : Agents) (s : Server) (start : Name) :
    ∃ l s', s.traverseDynamic ns ag start [] = some (l, s') ∧ Cleans s s' := by
  have h₀ : Traversal.Ok ⟨[start], strlens [start], true, []⟩ := ⟨rfl, by simp⟩
  obtain ⟨t, s', _, h, hc, _⟩ := run_eq ns ag s h₀ (append_nil [start]).symm
  rw [length_singleton] at h
  refine ⟨if t.fake then [] else t.names, s', ?_, hc⟩
  cases hf : t.fake <;> simp [traverseDynamic, stitchAll, h, hf]

theorem traverseDynamic_eq (ns : NameSpace) (ag : Agents) (s : Server) (start : Name)
    (hne : names ≠ []) :
    ∃ l s', s.traverseDynamic ns ag start names = some (l, s') ∧ Cleans s s' ∧
      (l = [] ↔ s.AllVanish ns ag names names.length) := by
  have h₀ : Traversal.Ok ⟨names, strlens names, false, []⟩ := ⟨rfl, by simp⟩
  obtain ⟨t, s', l, h, hc, hf, hn, hl⟩ := run_eq ns ag s h₀ names.append_nil.symm
  have hff : t.fake = false := by simpa using hf
  refine ⟨l, s', by simp [traverseDynamic, stitchAll, hne, h, hff, hn], hc, hl⟩

-- The names that are found do not all vanish.
def TraverseFit (ns : NameSpace) (ag : Agents) (s : Server) (name : Name) : Prop :=
  (ns.traverse name).1 < 0 ∨ ¬s.AllVanish ns ag (ns.traverse name).2 (ns.traverse name).2.length

theorem doPMNSTraverse_handled (hf : s.TraverseFit ns ag name) :
    s.Handled link (s.doPMNSTraverse ns ag link (.ok name)) := by
  simp only [doPMNSTraverse]
  cases hn : ns.children name
  case error sts =>
    -- The name may be the one of a node below the root of a dynamic subtree.
    obtain ⟨l, s', h, hc⟩ := traverseDynamic_nil ns ag s name
    simp only [NameSpace.traverse_error hn, ne_eq, not_true_eq_false, and_false, h]
    by_cases hl : l = []
    · simp only [bind_eq_bind, bind_some, hl]
      exact handled_error sts.property hc.client
    · simp only [bind_eq_bind, bind_some, hl]
      exact replyNames_handled (l := some l) (by simp) hc.client
  case ok l =>
    obtain ⟨h₀, hne⟩ := NameSpace.traverse_ok hn
    obtain ⟨l, s', h, hc, hl⟩ := traverseDynamic_eq ns ag s name hne
    have hl : l ≠ [] := fun he => hf.elim (by omega) fun hv => hv (hl.mp he)
    simp only [h₀, Int.lt_irrefl, h, bind_eq_bind, bind_some, hl]
    exact replyNames_handled (l := some l) (by simp) hc.client

theorem doPMNSTraverse_mishandled (hf : ¬s.TraverseFit ns ag name) :
    s.Mishandled (s.doPMNSTraverse ns ag link (.ok name)) := by
  simp only [TraverseFit, not_or, not_not] at hf
  obtain ⟨hnn, hv⟩ := hf
  cases hn : ns.children name
  case error sts =>
    exact absurd sts.property (by simpa only [NameSpace.traverse_error hn] using hnn)
  case ok l =>
    obtain ⟨h₀, hne⟩ := NameSpace.traverse_ok hn
    obtain ⟨l, s', h, hc, hl⟩ := traverseDynamic_eq ns ag s name hne
    refine .inr ⟨0, s', ?_, Int.le_refl 0, .inl hc.client⟩
    simp only [doPMNSTraverse, h₀, Int.lt_irrefl, false_and, h, bind_eq_bind,
      bind_some, hl.mpr hv]
    rfl

-- What the name space and the agents have to do for a request to be answered.
def Fits (ns : NameSpace) (ag : Agents) (s : Server) : Request → Prop
  | .ids (.ok pmid) => s.IdsFit ns ag pmid
  | .child (.ok (name, _)) => s.ChildFit ns ag name
  | .traverse (.ok name) => s.TraverseFit ns ag name
  | _ => True

theorem handle_handled (hf : s.Fits ns ag req) : s.Handled link (s.handle ns ag link req) := by
  rcases req with (sts | _) | r | (sts | _) | (sts | _)
  case ids.error => exact handled_error sts.property rfl
  case child.error => exact handled_error sts.property rfl
  case traverse.error => exact handled_error sts.property rfl
  case ids.ok => exact doPMNSIDs_handled hf
  case names => exact doPMNSNames_handled
  case child.ok => exact doPMNSChild_handled hf
  case traverse.ok => exact doPMNSTraverse_handled hf

theorem handle_mishandled (hl : ∀ p, 0 ≤ link p) (hf : ¬s.Fits ns ag req) :
    s.Mishandled (s.handle ns ag link req) := by
  rcases req with (sts | _) | r | (sts | _) | (sts | _)
  case ids.ok => exact doPMNSIDs_mishandled hf
  case child.ok => exact doPMNSChild_mishandled hl hf
  case traverse.ok => exact doPMNSTraverse_mishandled hf
  all_goals exact absurd trivial hf

theorem Handled.answered (h : s.Handled link r) (hs : s.client.connected)
    (hl : ∀ code, 0 ≤ link (.error code)) :
    ∃ s', r.map (sendError link) = some s' ∧ s.Answered link s' := by
  obtain ⟨sts, s', rfl, h⟩ := h
  refine ⟨_, rfl, ?_⟩
  rcases h with ⟨hneg, hc⟩ | ⟨p, hw, rfl, hc⟩
  · have hle : ¬link (.error sts) < 0 := by have := hl sts; omega
    refine ⟨.error sts, hneg, ?_⟩
    simp [Gets, sendError, hneg, hc, hs, hle, deliver]
  · refine ⟨p, hw, ?_⟩
    by_cases hp : link p < 0
    · have : s'.client.connected = false := by rw [hc, if_pos hp]; rfl
      simpa [sendError, this] using hc
    · simpa [sendError, hp] using hc

theorem Mishandled.not_answered (h : s.Mishandled r) (hl : ∀ p, 0 ≤ link p) :
    ¬∃ s', r.map (sendError link) = some s' ∧ s.Answered link s' := by
  rintro ⟨s', hr, p', hw', ha⟩
  rcases h with rfl | ⟨sts, s₁, rfl, hnn, hc⟩
  · contradiction
  · have hneg : ¬sts < 0 := by omega
    simp only [map_some, sendError, hneg, false_and, if_false, some.injEq] at hr
    subst hr
    rw [Gets, if_neg (Int.not_lt.mpr (hl p'))] at ha
    rcases hc with hc | ⟨p, hw, hc⟩
    · have := congrArg Client.received (hc.symm.trans ha)
      simp [deliver] at this
    · have := congrArg Client.received (hc.symm.trans ha)
      simp only [deliver, append_cancel_left_eq, cons.injEq, and_true] at this
      exact hw (this ▸ hw')

-- A client that is connected is answered iff the request fits, or if the client must not ask at
-- all.
theorem handleClientInput_answered (hs : s.client.connected) :
    ((∀ code, 0 ≤ link (.error code)) → s.client.denyFetch ∨ s.Fits ns ag req →
      ∃ s', s.handleClientInput ns ag link req = some s' ∧ s.Answered link s') ∧
    ((∀ p, 0 ≤ link p) → ¬(s.client.denyFetch ∨ s.Fits ns ag req) →
      ¬∃ s', s.handleClientInput ns ag link req = some s' ∧ s.Answered link s') := by
  refine ⟨fun hl hf => ?_, fun hl hf => ?_⟩
  · refine Handled.answered ?_ hs hl
    split
    case isTrue => exact handled_error (by decide) rfl
    case isFalse hd => exact handle_handled (hf.resolve_left hd)
  · obtain ⟨hd, hf⟩ := not_or.mp hf
    simp only [handleClientInput, hd, Bool.false_eq_true]
    exact (handle_mishandled hl hf).not_answered hl

-- The name space has one name, which is the root of a subtree of the agent for domain 29.
def oneName : NameSpace where
  nameAll _ := .error ⟨pmErrPmid, by decide⟩
  lookupName l := (l.length, l.map fun _ => 511 <<< 22 + 29 <<< 10)
  children name :=
    if name = [] then .ok ([[97]], [1])
    else if name = [97] then .ok ([], [])
    else .error ⟨pmErrName, by decide⟩
  depth name := if name = [] then 1 else 0
  lookup_length := by simp
  children_length name l h := by
    split at h
    · cases h; rfl
    · split at h <;> cases h
      rfl
  depth_lt name l h c hc := by
    split at h
    case isTrue hn =>
      cases h
      simp_all [join]
    case isFalse hn =>
      split at h <;> cases h
      simp at hc
  child name l h c hc := by
    split at h
    case isTrue hn =>
      cases h
      exact ⟨([], []), by simp_all [join]⟩
    case isFalse hn =>
      split at h <;> cases h
      simp at hc

def oneAgent (isDso : Bool) : Server where
  agent := [⟨29, isDso, 4, true, false⟩]
  client := { connected := true, denyFetch := false, received := [] }

-- A daemon replies with `r`, and a DSO returns an array without names.
def replying (r : Reply) : Agents where
  send _ := 0
  reply _ := r
  name _ := .ok none
  pmid _ := (0, 0)
  children _ := .ok (.bare (some []))

theorem handleClientInput_answered_names :
    let s := oneAgent false
    let l := NameList.bare (some [[98]])
    ∃ s', s.handleClientInput oneName (replying (.names (.ok l))) (fun _ => 12)
      (.child (.ok ([97], 0))) = some s' ∧ s.Answered (fun _ => 12) s' := by
  intro s l
  refine (handleClientInput_answered rfl).left (by simp) (.inr ?_)
  rintro _ _ ap k ha _
  refine ⟨?_, by decide, .inl ⟨l, rfl⟩⟩
  cases ha
  decide

theorem handleClientInput_unanswered :
    ((oneAgent false).handleClientInput oneName (replying (.error pmErrName)) (fun _ => 12)
      (.child (.ok ([97], 0)))).map (·.client.received) = some [.names pmErrName [] none] ∧
    ((oneAgent true).handleClientInput oneName (replying .other) (fun _ => 12)
      (.traverse (.ok [97]))).map (·.client) = some (oneAgent true).client :=
  ⟨rfl, rfl⟩

end Server

end Pmcd.Names
