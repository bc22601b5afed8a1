import PcpModel.Log.Fetch
import PcpModel.Log.Sequence

namespace Log

open Stdio Pcp

namespace Mode

theorem flip_flip : (mode : Mode) → mode.flip.flip = mode
  | .forw | .back => rfl

def Le (mode : Mode) (s₁ s₂ : Int) : Prop :=
  match mode with
  | .forw => s₁ ≤ s₂
  | .back => s₂ ≤ s₁

instance : Decidable (Le mode s₁ s₂) :=
  match mode with
  | .forw | .back => inferInstanceAs (Decidable (_ ≤ _))

variable {mode : Mode}

theorem not_skips_iff : ¬mode.Skips origin stamp ↔ mode.Le origin stamp := by
  cases mode <;> simp only [Skips, Le] <;> omega

theorem Skips.of_le (h₁ : mode.Le s₁ s₂) (h₂ : mode.Skips origin s₂) : mode.Skips origin s₁ := by
  cases mode <;> simp only [Skips, Le] at * <;> omega

def order (mode : Mode) (pbs : List Pdu) : List Pdu :=
  match mode with
  | .forw => pbs
  | .back => pbs.reverse

@[simp]
theorem mem_order : pb ∈ mode.order pbs ↔ pb ∈ pbs := by
  cases mode <;> simp [order]

@[simp]
theorem length_order : (mode.order pbs).length = pbs.length := by
  cases mode <;> simp [order]

def behind (mode : Mode) (before after : List Pdu) : List Pdu :=
  match mode with
  | .forw => before.reverse
  | .back => after

def ahead (mode : Mode) (before after : List Pdu) : List Pdu :=
  match mode with
  | .forw => after
  | .back => before.reverse

theorem behind_append_ahead (mode : Mode) (before after : List Pdu) :
    (mode.behind before after).reverse ++ mode.ahead before after =
      mode.order (before ++ after) := by
  cases mode <;> simp [behind, ahead, order]

end Mode

namespace Layout

variable {ρ : Type} {L : Layout} {ar : Archive} {codec : Codec ρ} {lcp : LogCtl} {mode : Mode}

def Facing (L : Layout) (lcp : LogCtl) (mode : Mode) (behind ahead : List Pdu) : Prop :=
  match mode with
  | .forw => L.At lcp behind.reverse ahead
  | .back => L.At lcp ahead.reverse behind

theorem At.facing (h : L.At lcp before after) (mode : Mode) :
    L.Facing lcp mode (mode.behind before after) (mode.ahead before after) := by
  cases mode <;> simpa [Facing, Mode.behind, Mode.ahead] using h

namespace Facing

theorem mfp (h : L.Facing lcp mode behind ahead) : ∃ f, lcp.mfp = some f := by
  cases mode <;> obtain ⟨_, _, ho, _⟩ := h.split <;> exact ⟨_, ho.mfp⟩

theorem flip (h : L.Facing lcp mode behind ahead) : L.Facing lcp mode.flip ahead behind := by
  cases mode <;> exact h

theorem read (hf : L.Fits ar) (h : L.Facing lcp mode behind (pb :: ahead))
    (hc : codec.Reads pb r) :
    ∃ curvol mfp seen, logRead ar codec mode .next lcp =
        some ({ lcp with curvol, mfp, seen }, .ok r) ∧
      L.Facing { lcp with curvol, mfp, seen } mode (pb :: behind) ahead := by
  cases mode
  case forw =>
    obtain ⟨c, m, s, he, ha⟩ := At.read_forw .next hf h hc
    exact ⟨c, m, s, he, by simpa [Facing] using ha⟩
  case back =>
    rw [Facing, List.reverse_cons] at h
    exact h.read_back .next hf hc

theorem read_end (codec : Codec ρ) (hf : L.Fits ar) (h : L.Facing lcp mode behind []) :
    ∃ lcp' f, logRead ar codec mode .next lcp = some (lcp', .error pmErrEol) ∧
      lcp'.mfp = some f := by
  cases mode
  case forw => exact At.read_forw_end .next codec hf h
  case back =>
    obtain ⟨lcp', he, ha⟩ := At.read_back_end .next codec hf h
    obtain ⟨_, _, ho, _⟩ := ha.split
    exact ⟨lcp', _, he, ho.mfp⟩

theorem read_end_keep (codec : Codec ρ) (hf : L.Fits ar) (h : L.Facing lcp mode behind [])
    (hk : mode = .forw → lcp.curvol = lcp.maxvol ∨ L.recs lcp.maxvol ≠ some []) :
    ∃ lcp', logRead ar codec mode .next lcp = some (lcp', .error pmErrEol) ∧
      L.Facing lcp' mode behind [] := by
  cases mode
  case back => exact At.read_back_end .next codec hf h
  case forw =>
    have ⟨hl, hu, hr, done, todo, ho, _, ha⟩ := h
    obtain ⟨rfl, hn⟩ := List.append_eq_nil_iff.mp ha.symm
    refine ⟨lcp, ho.read_forw_last .next ?_, h⟩
    by_contra hlt
    have hv := span_void hn (fun u h₁ h₂ => hr u (by omega) (by omega)) lcp.maxvol (by omega)
      (by omega)
    obtain hc | hm := hk rfl
    · omega
    · exact hm (hv.resolve_left (hr lcp.maxvol (by omega) le_rfl))

end Facing

end Layout

end Log
