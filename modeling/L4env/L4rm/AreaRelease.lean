import L4env.L4rm.RegionRun

/-!
# L4RM: the release of an area

`l4rm_area_release` ends for every area id but the one of the default area. A region of the default
area that is put into the default area is in that area still: `l4rm_reset_area` finds it again and
again. `l4rm_area_release_addr` refuses the default area.
-/

namespace L4env.L4rm

open Rm

namespace Rm
variable {s : Rm} {l : List Cell} {T : Tree} {x : Nat}

/-- A round of `l4rm_reset_area` for the default area leaves a region in the default area: the one
that covers the addresses of the region found. -/
theorem reset_step_default (I : s.InvBut defaultArea l T) {c : Cell} (hc : c ∈ l)
    (harea : c.area = defaultArea) :
    ∃ l' s', (s.setFlags c.ptr { c.reg.flags with area := defaultArea }).modifyRegion c.ptr
        { c.reg.flags with area := defaultArea } = .ok s' ∧ s'.InvBut defaultArea l' T ∧
      ∃ d ∈ l', d.area = defaultArea := by
  obtain ⟨l', s', hrun, I', hr, -⟩ := reset_step I hc harea
  refine ⟨l', s', hrun, I', ?_⟩
  have hle := (I.last_le hc).1
  obtain ⟨d, hd, hat, -⟩ := (hr.types c.start _).mpr ⟨c, hc, ⟨le_rfl, hle⟩, rfl⟩
  refine ⟨d, hd, ?_⟩
  by_contra hne
  -- a region of another area is as before, so it has no address in common with `c`
  have hd' := hr.areas d hne hne hd
  have hdc := I.layout.tiles.unique hd' hc hat.1 hat.2 le_rfl hle
  exact hne (hdc ▸ harea)

/-- No number of rounds of `l4rm_reset_area` is enough for the default area. -/
theorem resetLoop_default (n : Nat) (I : s.InvBut defaultArea l T)
    (h : ∃ c ∈ l, c.area = defaultArea) : resetLoop defaultArea n s = .error .diverges := by
  induction n generalizing s l with
  | zero => rfl
  | succ n ih =>
    have hscan := I.shows.scan_eq fun r => r.flags.area = defaultArea
    rw [resetLoop, hscan]
    cases hfind : l.find? fun c => decide (c.reg.flags.area = defaultArea) with
    | none =>
      obtain ⟨c, hc, harea⟩ := h
      exact absurd (decide_eq_true harea) (List.find?_eq_none.mp hfind c hc)
    | some c =>
      have hc := List.mem_of_find?_eq_some hfind
      have hstop := List.find?_some hfind
      have harea : c.area = defaultArea := of_decide_eq_true hstop
      obtain ⟨l', s', hrun, I', hleft⟩ := reset_step_default I hc harea
      have hflags : ((s.setFlags c.ptr { c.reg.flags with area := defaultArea }).region
          c.ptr).flags = { c.reg.flags with area := defaultArea } := by
        simp [Rm.setFlags, setRegion]
      simp only [Option.map_some, I.shows.region c hc, hflags, hrun]
      exact ih I' hleft

/-- An area without regions is released in one round that changes nothing. -/
theorem resetArea_unused (I : s.Inv l T) (h : ∀ c ∈ l, c.area ≠ x) : s.resetArea x = .ok s := by
  have hscan := I.shows.scan_eq fun r => r.flags.area = x
  have hfind : l.find? (fun c => decide (c.reg.flags.area = x)) = none :=
    List.find?_eq_none.mpr fun c hc => by simpa [Cell.area] using h c hc
  rw [resetArea, listFuel, resetLoop, hscan, hfind]
  rfl

theorem resetArea_ok (I : s.Inv l T) (hx : x ≠ defaultArea) :
    ∃ s' l', s.resetArea x = .ok s' ∧ s'.Inv l' T ∧ Released x l l' ∧ ∀ c ∈ l', c.area ≠ x := by
  have hloop := resetArea_released (x := x) I
  cases hrun : s.resetArea x with
  | ok s' =>
    obtain ⟨l', I', hr, hnone⟩ := hloop.post hrun
    exact ⟨s', l', rfl, I', hr, hnone⟩
  | error e => exact absurd (hloop.fail hrun).2 hx

/-- What `l4rm_area_release` is to do: the area has no regions any more, the addresses keep their
types, the regions of other areas stay as they are, and free neighbours with equal flags are
joined. -/
def AreaReleased (s : Rm) (l : List Cell) (x : Nat) : Prop :=
  ∃ l' s', s.areaRelease x = .ok ({ ret := .ok }, s') ∧ s'.Shows l' ∧ Released x l l' ∧
    (x ≠ defaultArea → ∀ c ∈ l', c.area ≠ x) ∧ l'.IsChain Apart

end Rm

end L4env.L4rm
