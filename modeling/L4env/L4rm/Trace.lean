import L4env.L4rm.RegionRun

/-!
# L4RM: the lock and the released descriptors

The operations once more, with what the region list and the tree do not show: the lock of the region
list, which the functions take and give back on each of their paths, and the descriptors that they hand
to `l4rm_region_desc_free`.
-/

namespace L4env.L4rm

namespace Rm

/-- The descriptor that `__insert_region` releases. -/
def insertFrees (s : Rm) (region rp : Ptr) : List Ptr :=
  if (s.region rp).start = (s.region region).start ∧ (s.region rp).last = (s.region region).last then
    [rp]
  else []

/-- The descriptors that `__modify_region` releases. -/
def modifyFrees (s : Rm) (region : Ptr) (newFlags : RegionFlags) : List Ptr :=
  let s := s.setFlags region newFlags
  if (s.region region).used then []
  else
    let (p, s) := s.joinPrev region
    (if p = region then [] else [region]) ++
      match s.next p with
      | none => []
      | some tmp => if (s.region p).flags = (s.region tmp).flags then [p] else []

/-- The descriptors that `l4rm_free_region` releases. -/
def freeFrees (s : Rm) (region : Ptr) : List Ptr :=
  let r := s.region region
  if r.used = false then []
  else
    let s := s.setFlags region { r.flags with type := .free }
    s.modifyFrees region (s.region region).flags

end Rm

/-- L4RM as a thread of the task sees it. The lock may be taken again by its owner; `lock` is how often
the thread holds it. -/
structure Lib where
  rm : Rm
  lock : Nat
  /-- The released descriptors, without those of `l4rm_reset_area`, which cannot fail. -/
  freed : List Ptr

namespace Lib
open Rm (Out)

/-- `l4rm_lock_region_list` -/
def lockRegionList (x : Lib) : Lib := { x with lock := x.lock + 1 }

/-- `l4rm_unlock_region_list` -/
def unlockRegionList (x : Lib) : Lib := { x with lock := x.lock - 1 }

/-- `l4rm_lock_region_list_direct` -/
def lockRegionListDirect (x : Lib) (flags : RmFlags) : Lib :=
  if flags.modifyDirect then x else x.lockRegionList

/-- `l4rm_unlock_region_list_direct` -/
def unlockRegionListDirect (x : Lib) (flags : RmFlags) : Lib :=
  if flags.modifyDirect then x else x.unlockRegionList

/-- `l4rm_region_desc_free` -/
def regionDescFree (x : Lib) (p : Ptr) : Lib := { x with rm := x.rm.descFree p, freed := p :: x.freed }

/-- `l4rm_free_region` -/
def freeRegion (x : Lib) (region : Ptr) : Except Fault Lib := do
  let s ← x.rm.freeRegion region
  return { x with rm := s, freed := x.rm.freeFrees region ++ x.freed }

/-- `l4rm_new_region` -/
def newRegion (x : Lib) (region : Ptr) (addr size area : Nat) (flags : RmFlags) (env : Env) :
    Except Fault (RmRet × Lib) := do
  match ← x.rm.place addr size area flags with
  | .error e => return (e, x)
  | .ok (rp, mapAddr, size) =>
    let area := if flags.setArea then mapAddr / pageSize else area
    let s := x.rm.setRegion region { x.rm.region region with
      start := mapAddr
      last := Word.sub (Word.add mapAddr size) 1
      flags := { (x.rm.region region).flags with area := area % 1048576 } }
    let (ret, s') ← s.insertRegion region rp env.tmp
    if ret ≠ .ok then return (ret, { x with rm := s' })
    let x := { x with rm := s', freed := s.insertFrees region rp ++ x.freed }
    if flags.treeInsert then
      let (ret, s) ← x.rm.treeInsertRegion region flags env
      let x := { x with rm := s }
      if ret ≠ .ok then
        if ret = .eexists then throw .corrupted
        return (ret, ← x.freeRegion region)
      return (.ok, x)
    return (.ok, x)

/-- What attach, setup and reserve have in common. After a failure `l4rm_do_attach` releases the
descriptor before it gives the lock back, the other two release it afterwards. -/
def create (x : Lib) (freeLocked : Bool) (type : RegionType) (data : RegionData)
    (addr size area : Nat) (flags : RmFlags) (env : Env) : Except Fault (RmRet × Ptr × Lib) := do
  match x.rm.descAlloc env.desc with
  | none => return (.enomem, 0, x)
  | some (r, s) =>
    let x := { x with rm := s.setRegion r { s.region r with flags := { type := type }, data := data } }
    let (ret, x) ← (x.lockRegionListDirect flags).newRegion r addr size area flags env
    if ret ≠ .ok then
      if freeLocked then return (ret, r, (x.regionDescFree r).unlockRegionListDirect flags)
      else return (ret, r, (x.unlockRegionListDirect flags).regionDescFree r)
    return (.ok, r, x.unlockRegionListDirect flags)

/-- `l4rm_do_attach` -/
def doAttach (x : Lib) (ds : Option Nat) (area addr size dsOffs rights : Nat) (flags : RmFlags)
    (env : Env) : Except Fault (Out × Lib) := do
  match ds with
  | none => return ({ ret := .einval, addr := addr }, x)
  | some ds =>
    let startOffs := Word.roundDown dsOffs pageSize
    let mapOffs := Word.sub dsOffs startOffs
    let (ret, r, x) ← x.create true .dataspace (.ds ds startOffs rights) addr (Word.add size mapOffs)
      area { flags with treeInsert := true } env
    if ret ≠ .ok then return ({ ret := ret, addr := addr }, x)
    return ({ ret := .ok, addr := Word.add (x.rm.region r).start mapOffs }, x)

/-- `l4rm_do_area_setup` -/
def doAreaSetup (x : Lib) (addr size area type : Nat) (flags : RmFlags) (pager : Option Nat)
    (env : Env) : Except Fault (Out × Lib) := do
  match x.rm.setupType type pager with
  | none => return ({ ret := .einval, addr := addr }, x)
  | some (t, data) =>
    let (ret, r, x) ← x.create false t data addr size area { flags with treeInsert := true } env
    if ret ≠ .ok then return ({ ret := ret, addr := addr }, x)
    return ({ ret := .ok, addr := (x.rm.region r).start }, x)

/-- `l4rm_do_reserve` -/
def doReserve (x : Lib) (addr size : Nat) (flags : RmFlags) (env : Env) :
    Except Fault (Out × Lib) := do
  let (ret, r, x) ← x.create false .free .none addr size defaultArea { flags with setArea := true } env
  if ret ≠ .ok then return ({ ret := ret, addr := addr }, x)
  return ({ ret := .ok, addr := (x.rm.region r).start, area := (x.rm.region r).flags.area }, x)

/-- `l4rm_tree_remove_region` -/
def treeRemoveRegion (x : Lib) (addr : Nat) (type : RegionType) (env : Env) :
    Except Fault (Except RmRet Ptr × Lib) := do
  let (ret, s) ← x.rm.treeRemoveRegion addr type env
  return (ret, { x with rm := s })

/-- `l4rm_detach` -/
def detach (x : Lib) (addr : Nat) (env : Env) : Except Fault (Out × Lib) := do
  match ← x.lockRegionList.treeRemoveRegion addr .dataspace env with
  | (.error e, x) => return ({ ret := e }, x.unlockRegionList)
  | (.ok r, x) => return ({ ret := .ok }, (← x.freeRegion r).unlockRegionList)

/-- `l4rm_area_clear_region` -/
def areaClearRegion (x : Lib) (addr : Nat) (env : Env) : Except Fault (Out × Lib) := do
  let x := x.lockRegionList
  match ← x.rm.findUsedRegion addr with
  | none => return ({ ret := .enotfound }, x.unlockRegionList)
  | some rp =>
    if (x.rm.region rp).flags.type = .dataspace then return ({ ret := .einval }, x.unlockRegionList)
    match ← x.treeRemoveRegion addr (x.rm.region rp).flags.type env with
    | (.error e, x) => return ({ ret := e }, x.unlockRegionList)
    | (.ok r, x) => return ({ ret := .ok }, (← x.freeRegion r).unlockRegionList)

/-- `l4rm_area_release` -/
def areaRelease (x : Lib) (area : Nat) : Except Fault (Out × Lib) := do
  let x := x.lockRegionList
  let s ← x.rm.resetArea area
  return ({ ret := .ok }, unlockRegionList { x with rm := s })

/-- `l4rm_area_release_addr`, which keeps the lock on its error path. -/
def areaReleaseAddr (x : Lib) (addr : Nat) : Except Fault (Out × Lib) := do
  let x := x.lockRegionList
  match ← x.rm.findRegion addr with
  | none => return ({ ret := .einval }, x)
  | some rp =>
    if (x.rm.region rp).flags.area = defaultArea then return ({ ret := .einval }, x)
    let s ← x.rm.resetArea (x.rm.region rp).flags.area
    return ({ ret := .ok }, unlockRegionList { x with rm := s })

def step (x : Lib) (env : Env) : RmOp → Except Fault (Out × Lib)
  | .attach ds area addr size dsOffs rights flags =>
    x.doAttach ds area addr size dsOffs rights flags env
  | .areaSetup addr size area type flags pager => x.doAreaSetup addr size area type flags pager env
  | .reserve addr size flags => x.doReserve addr size flags env
  | .detach addr => x.detach addr env
  | .areaClearRegion addr => x.areaClearRegion addr env
  | .areaRelease area => x.areaRelease area
  | .areaReleaseAddr addr => x.areaReleaseAddr addr

/-! ## The regions are those of the operations without the lock -/

variable {x : Lib} {addr size area : Nat} {flags : RmFlags} {env : Env}

@[simp] theorem lockRegionListDirect_rm (x : Lib) : (x.lockRegionListDirect flags).rm = x.rm := by
  rw [lockRegionListDirect]
  split <;> rfl

@[simp] theorem unlockRegionListDirect_rm (x : Lib) : (x.unlockRegionListDirect flags).rm = x.rm := by
  rw [unlockRegionListDirect]
  split <;> rfl

theorem freeRegion_rm {p : Ptr} : (x.freeRegion p).map (fun y => y.rm) = x.rm.freeRegion p := by
  rw [freeRegion]
  cases x.rm.freeRegion p <;> rfl

theorem newRegion_rm {p : Ptr} : (x.newRegion p addr size area flags env).map (fun q => (q.1, q.2.rm)) =
    x.rm.newRegion p addr size area flags env := by
  unfold newRegion Rm.newRegion
  cases x.rm.place addr size area flags with
  | error f => rfl
  | ok q =>
    cases q with
    | error e => rfl
    | ok q =>
      obtain ⟨rp, mapAddr, size'⟩ := q
      simp only [ok_bind]
      cases Rm.insertRegion _ p rp env.tmp with
      | error f => rfl
      | ok q =>
        obtain ⟨ret, s⟩ := q
        simp only [ok_bind]
        by_cases hret : ret = .ok
        · simp only [hret, ne_eq, not_true_eq_false, if_false]
          by_cases htree : flags.treeInsert = true
          · rw [if_pos htree, if_pos htree]
            cases s.treeInsertRegion p flags env with
            | error f => rfl
            | ok q =>
              obtain ⟨ret, s⟩ := q
              simp only [ok_bind]
              by_cases hret : ret = .ok
              · simp only [hret, not_true_eq_false, if_false]
                rfl
              · simp only [hret, not_false_eq_true, if_true]
                by_cases hexists : ret = .eexists
                · rw [if_pos hexists, if_pos hexists]
                  rfl
                · rw [if_neg hexists, if_neg hexists]
                  unfold freeRegion
                  cases s.freeRegion p <;> rfl
          · rw [if_neg htree, if_neg htree]
            rfl
        · rw [if_pos hret, if_pos hret]
          rfl

theorem create_rm (x : Lib) (freeLocked : Bool) {type : RegionType} {data : RegionData} :
    (x.create freeLocked type data addr size area flags env).map (fun q => (q.1, q.2.1, q.2.2.rm)) =
      x.rm.create type data addr size area flags env := by
  unfold create Rm.create
  cases x.rm.descAlloc env.desc with
  | none => rfl
  | some q =>
    obtain ⟨r, s⟩ := q
    dsimp only
    generalize ({ s.region r with flags := { type := type }, data := data } : Region) = reg
    generalize hx₁ : lockRegionListDirect ⟨s.setRegion r reg, x.lock, x.freed⟩ flags = x₁
    have hrm : s.setRegion r reg = x₁.rm := by rw [← hx₁, lockRegionListDirect_rm]
    rw [hrm, ← newRegion_rm]
    cases x₁.newRegion r addr size area flags env with
    | error f => rfl
    | ok q =>
      obtain ⟨ret, y⟩ := q
      simp only [ok_bind, Except.map]
      by_cases hret : ret = .ok
      · rw [if_neg (not_not.mpr hret), if_neg (not_not.mpr hret)]
        exact congrArg (fun s => Except.ok (RmRet.ok, r, s)) (unlockRegionListDirect_rm y)
      · rw [if_pos hret, if_pos hret]
        cases freeLocked with
        | true =>
          exact congrArg (fun s => Except.ok (ret, r, s))
            (unlockRegionListDirect_rm (y.regionDescFree r))
        | false =>
          exact congrArg (fun s : Rm => Except.ok (ret, r, s.descFree r)) (unlockRegionListDirect_rm y)

theorem removal_rm {type : RegionType} :
    (do
      match ← x.lockRegionList.treeRemoveRegion addr type env with
      | (.error e, y) => return (({ ret := e } : Out), y.unlockRegionList)
      | (.ok r, y) => return ({ ret := .ok }, (← y.freeRegion r).unlockRegionList) :
        Except Fault (Out × Lib)).map (fun q => (q.1, q.2.rm)) =
      (do
        match ← x.rm.treeRemoveRegion addr type env with
        | (.error e, s) => return ({ ret := e }, s)
        | (.ok r, s) => return ({ ret := .ok }, ← s.freeRegion r)) := by
  have hrm : x.lockRegionList.rm = x.rm := rfl
  unfold treeRemoveRegion
  rw [hrm]
  cases x.rm.treeRemoveRegion addr type env with
  | error f => rfl
  | ok q =>
    obtain ⟨r, s⟩ := q
    cases r with
    | error e => rfl
    | ok p =>
      have hfree := freeRegion_rm (x := ⟨s, x.lock + 1, x.freed⟩) (p := p)
      dsimp only at hfree
      simp only [ok_bind, pure_bind, lockRegionList, ← hfree]
      cases freeRegion ⟨s, x.lock + 1, x.freed⟩ p <;> rfl

/-- The operations do to the regions what the operations without the lock do. -/
theorem step_rm (op : RmOp) :
    (x.step env op).map (fun q => (q.1, q.2.rm)) = x.rm.step env op := by
  cases op with
  | attach ds area addr size dsOffs rights flags =>
    cases ds with
    | none => rfl
    | some ds =>
      simp only [step, Rm.step, doAttach, Rm.doAttach]
      rw [← create_rm x true]
      cases x.create true _ _ addr _ area _ env with
      | error f => rfl
      | ok q =>
        obtain ⟨ret, r, y⟩ := q
        cases ret <;> rfl
  | areaSetup addr size area type flags pager =>
    simp only [step, Rm.step, doAreaSetup, Rm.doAreaSetup]
    cases x.rm.setupType type pager with
    | none => rfl
    | some q =>
      obtain ⟨t, data⟩ := q
      dsimp only
      rw [← create_rm x false]
      cases x.create false t data addr size area _ env with
      | error f => rfl
      | ok q =>
        obtain ⟨ret, r, y⟩ := q
        cases ret <;> rfl
  | reserve addr size flags =>
    simp only [step, Rm.step, doReserve, Rm.doReserve]
    rw [← create_rm x false]
    cases x.create false .free .none addr size defaultArea _ env with
    | error f => rfl
    | ok q =>
      obtain ⟨ret, r, y⟩ := q
      cases ret <;> rfl
  | detach addr =>
    simp only [step, Rm.step, detach, Rm.detach]
    exact removal_rm
  | areaClearRegion addr =>
    simp only [step, Rm.step, areaClearRegion, Rm.areaClearRegion]
    have hused : x.lockRegionList.rm.findUsedRegion addr = x.rm.findUsedRegion addr := rfl
    rw [hused]
    cases x.rm.findUsedRegion addr with
    | error f => rfl
    | ok q =>
      cases q with
      | none => rfl
      | some rp =>
        simp only [ok_bind]
        have hrm : x.lockRegionList.rm = x.rm := rfl
        rw [hrm]
        split
        · rfl
        · exact removal_rm
  | areaRelease area =>
    simp only [step, Rm.step, areaRelease, Rm.areaRelease]
    have hrm : x.lockRegionList.rm = x.rm := rfl
    rw [hrm]
    cases x.rm.resetArea area <;> rfl
  | areaReleaseAddr addr =>
    simp only [step, Rm.step, areaReleaseAddr, Rm.areaReleaseAddr]
    have hrm : x.lockRegionList.rm = x.rm := rfl
    rw [hrm]
    cases x.rm.findRegion addr with
    | error f => rfl
    | ok q =>
      cases q with
      | none => rfl
      | some rp =>
        simp only [ok_bind]
        split
        · rfl
        · cases x.rm.resetArea (x.rm.region rp).flags.area <;> rfl

end Lib

end L4env.L4rm
