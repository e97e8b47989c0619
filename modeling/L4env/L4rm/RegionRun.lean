import L4env.L4rm.RegionOps

/-!
# L4RM: runs

The operations of the library as steps, and the states reached by them. A run is described by a
condition on its steps. Under `RmOp.Sound` (no request wraps around, regions are entered into the
tree successfully, and a reservation does not carry the internal flag `L4RM_TREE_INSERT`) the region
list stays a partition of the address space. If also the calls that take a region out of the tree
succeed, list and tree agree.
-/

namespace L4env.L4rm

open Rm

/-- The operations of the library. -/
inductive RmOp
  | attach (ds : Option Nat) (area addr size dsOffs rights : Nat) (flags : RmFlags)
  | areaSetup (addr size area type : Nat) (flags : RmFlags) (pager : Option Nat)
  | reserve (addr size : Nat) (flags : RmFlags)
  | detach (addr : Nat)
  | areaClearRegion (addr : Nat)
  | areaRelease (area : Nat)
  | areaReleaseAddr (addr : Nat)

def Rm.step (s : Rm) (env : Env) : RmOp → Except Fault (Out × Rm)
  | .attach ds area addr size dsOffs rights flags =>
    s.doAttach ds area addr size dsOffs rights flags env
  | .areaSetup addr size area type flags pager => s.doAreaSetup addr size area type flags pager env
  | .reserve addr size flags => s.doReserve addr size flags env
  | .detach addr => s.detach addr env
  | .areaClearRegion addr => s.areaClearRegion addr env
  | .areaRelease area => s.areaRelease area
  | .areaReleaseAddr addr => s.areaReleaseAddr addr

/-- The arguments are machine words. -/
def RmOp.Words : RmOp → Prop
  | .attach _ _ addr size dsOffs _ _ =>
    addr < 4294967296 ∧ size < 4294967296 ∧ dsOffs < 4294967296
  | .areaSetup addr size _ _ _ _ => addr < 4294967296 ∧ size < 4294967296
  | .reserve addr size _ => addr < 4294967296 ∧ size < 4294967296
  | _ => True

/-- The slab caches hand out descriptors and nodes that are not in use. -/
structure Env.Fresh (env : Env) (s : Rm) : Prop where
  desc : ∀ p, env.desc = some p → p ∉ s.live
  tmp : ∀ t, env.tmp = some t → t ∉ s.live ∧ env.desc ≠ some t
  node : ∀ q, env.node = some q → q ≠ 0 ∧ s.tree.node q = none

/-- The size that `l4rm_do_attach` asks for. -/
def attachSize (size dsOffs : Nat) : Nat :=
  Word.add size (Word.sub dsOffs (Word.roundDown dsOffs pageSize))

/-- The condition under which an operation keeps the region list in order. -/
def RmOp.Sound (s : Rm) (env : Env) : RmOp → Prop
  | .attach ds area addr size dsOffs _ flags =>
    ds.isSome → s.Roomy addr (attachSize size dsOffs) area flags ∧ Reliable flags env
  | .areaSetup addr size area type flags pager =>
    (s.setupType type pager).isSome → s.Roomy addr size area flags ∧ Reliable flags env
  | .reserve addr size flags => s.Roomy addr size defaultArea flags ∧ flags.treeInsert = false
  | _ => True

namespace Rm
variable {s s' : Rm} {l : List Cell} {T : Tree} {addr size area : Nat} {flags : RmFlags} {env : Env}

/-- The invariant after an operation; `lossless` says that it cannot lose an entry of the tree. -/
def Kept (l : List Cell) (T : Tree) (lossless : Prop) (s' : Rm) : Prop :=
  ∃ l' T', s'.Inv l' T' ∧ (lossless → Complete l T → Complete l' T')

theorem Kept.same {P : Prop} (I : s.Inv l T) : Kept l T P s := ⟨l, T, I, fun _ h => h⟩

theorem InvBut.descAlloc {p : Ptr} {r : Region} (I : s.Inv l T) (hp : p ∉ s.live) :
    (setRegion { s with
      region := Function.update s.region p { s.region p with flags := {} }
      next := Function.update s.next p none
      prev := Function.update s.prev p none
      live := p :: s.live } p r).Inv l T := by
  have hne : ∀ c ∈ l, c.ptr ≠ p := fun c hc h => hp (h ▸ I.shows.live c hc)
  refine I.outside rfl (fun c hc => ⟨?_, ?_, ?_, ?_⟩) (List.nodup_cons.mpr ⟨hp, I.nodup⟩)
    ⟨rfl, rfl, rfl⟩
  · exact (Function.update_of_ne (hne c hc) _ _).trans (Function.update_of_ne (hne c hc) _ _)
  · exact Function.update_of_ne (hne c hc) _ _
  · exact Function.update_of_ne (hne c hc) _ _
  · exact List.mem_cons_of_mem _ (I.shows.live c hc)

/-- The condition on a request does not see the flags that `l4rm_new_region` gets in addition. -/
theorem roomyIn_flags {r : Region} {flags' : RmFlags} (h1 : flags'.log2Aligned = flags.log2Aligned)
    (h2 : flags'.log2Alloc = flags.log2Alloc) (h3 : flags'.superpageAligned = flags.superpageAligned)
    (h : RoomyIn r addr size area flags) : RoomyIn r addr size area flags' := by
  have : ∀ size, findArgs size flags' = findArgs size flags := by
    intro size
    simp only [findArgs, h1, h2, h3]
  simp only [RoomyIn, this] at h ⊢
  exact h

theorem create_spec {type : RegionType} {data : RegionData} (I : s.Inv l T) (henv : env.Fresh s)
    (haddr : addr < 4294967296) (hsize : size < 4294967296)
    (hroom : ∀ c ∈ l, RoomyIn c.reg addr size area flags) (hkind : Kind type area flags env) :
    Meets (s.create type data addr size area flags env) (fun q => ∀ P, Kept l T P q.2.2)
      fun e => e = .assertion ∧ type = .free := by
  rw [create]
  cases hdesc : env.desc with
  | none => exact fun P => .same I
  | some p =>
    have hp := henv.desc p hdesc
    have hpl : p ∉ l.map Cell.ptr := by
      intro h
      obtain ⟨c, hc, rfl⟩ := List.mem_map.mp h
      exact hp (I.shows.live c hc)
    simp only [Rm.descAlloc]
    generalize hr : ({ (Function.update s.region p { s.region p with flags := {} }) p with
      flags := { type := type }, data := data } : Region) = r
    have htype : r.flags.type = type := by rw [← hr]
    have I₁ := I.descAlloc (r := r) hp
    generalize hs₁ : setRegion { s with
      region := Function.update s.region p { s.region p with flags := {} }
      next := Function.update s.next p none
      prev := Function.update s.prev p none
      live := p :: s.live } p r = s₁ at I₁ ⊢
    have hlive : s₁.live = p :: s.live := by rw [← hs₁]; rfl
    have htree : s₁.tree = s.tree := by rw [← hs₁]; rfl
    have hreg : (s₁.region p).flags.type = type := by
      rw [← hs₁]
      simp [setRegion, htype]
    have hnew := newRegion_spec I₁ hpl (by simp [hlive]) haddr hsize hroom ?_ ?_ (hreg ▸ hkind)
    · rw [hreg] at hnew
      refine hnew.bind fun q hq => ?_
      obtain ⟨hret, I₂⟩ | ⟨hret, l', T', I₂, hcomplete⟩ := hq
      · rw [if_pos hret]
        exact fun P => .same (I₂.descFree_new hpl)
      · rw [if_neg (not_not.mpr hret)]
        exact fun P => ⟨l', T', I₂, fun _ => hcomplete⟩
    · intro t ht
      obtain ⟨h1, h2⟩ := henv.tmp t ht
      rw [hlive]
      simp only [List.mem_cons, not_or]
      exact ⟨fun h => h2 (h ▸ hdesc), h1⟩
    · rw [htree]
      exact henv.node

/-- Attach and setup. -/
theorem create_used_spec {type : RegionType} {data : RegionData} (I : s.Inv l T)
    (henv : env.Fresh s) (haddr : addr < 4294967296) (hsize : size < 4294967296)
    (hroom : s.Roomy addr size area flags) (hrel : Reliable flags env) (htype : type ≠ .free) :
    Meets (s.create type data addr size area { flags with treeInsert := true } env)
      (fun q => ∀ P, Kept l T P q.2.2) fun _ => False := by
  have hkind : Kind type area { flags with treeInsert := true } env := .used htype rfl hrel
  refine (create_spec I henv haddr hsize (fun c hc => ?_) hkind).mono (fun _ h => h)
    fun e he => htype he.2
  have := hroom c.ptr (I.shows.live c hc)
  rw [I.shows.region c hc] at this
  exact roomyIn_flags rfl rfl rfl this

theorem doAttach_spec {ds : Option Nat} {dsOffs rights : Nat} (I : s.Inv l T) (henv : env.Fresh s)
    (haddr : addr < 4294967296)
    (hs : ds.isSome → s.Roomy addr (attachSize size dsOffs) area flags ∧ Reliable flags env) :
    Meets (s.doAttach ds area addr size dsOffs rights flags env) (fun q => ∀ P, Kept l T P q.2)
      fun _ => False := by
  cases ds with
  | none => exact fun P => .same I
  | some ds =>
    obtain ⟨hroom, hrel⟩ := hs rfl
    have hsize : attachSize size dsOffs < 4294967296 := Word.add_lt _ _
    have htype : RegionType.dataspace ≠ .free := by decide
    simp only [doAttach]
    refine Meets.bind (create_used_spec I henv haddr hsize hroom hrel htype) fun q hq => ?_
    split
    · exact hq
    · exact hq

theorem doAreaSetup_spec {type : Nat} {pager : Option Nat} (I : s.Inv l T) (henv : env.Fresh s)
    (haddr : addr < 4294967296) (hsize : size < 4294967296)
    (hs : (s.setupType type pager).isSome → s.Roomy addr size area flags ∧ Reliable flags env) :
    Meets (s.doAreaSetup addr size area type flags pager env) (fun q => ∀ P, Kept l T P q.2)
      fun _ => False := by
  rw [doAreaSetup]
  cases hsetup : s.setupType type pager with
  | none => exact fun P => .same I
  | some t =>
    obtain ⟨hroom, hrel⟩ := hs (by rw [hsetup]; rfl)
    have htype : t.1 ≠ .free := by
      simp only [setupType] at hsetup
      split_ifs at hsetup <;> simp only [Option.some.injEq] at hsetup <;> subst hsetup <;> nofun
    refine (create_used_spec I henv haddr hsize hroom hrel htype).bind fun q hq => ?_
    dsimp only
    split
    · exact hq
    · exact hq

theorem doReserve_spec (I : s.Inv l T) (henv : env.Fresh s) (haddr : addr < 4294967296)
    (hsize : size < 4294967296) (hroom : s.Roomy addr size defaultArea flags)
    (htree : flags.treeInsert = false) :
    Meets (s.doReserve addr size flags env) (fun q => ∀ P, Kept l T P q.2)
      fun e => e = .assertion := by
  refine Meets.bind (Q := fun q => ∀ P, Kept l T P q.2.2) ?_ fun q hq => ?_
  · have hkind : Kind .free defaultArea { flags with setArea := true } env := .area rfl htree rfl rfl
    refine (create_spec I henv haddr hsize (fun c hc => ?_) hkind).mono (fun _ h => h)
      fun e he => he.1
    have := hroom c.ptr (I.shows.live c hc)
    rw [I.shows.region c hc] at this
    exact roomyIn_flags rfl rfl rfl this
  · dsimp only
    split
    · exact hq
    · exact hq

/-- A region is taken out of the tree; a lost reply leaves it in the list. -/
theorem treeRemoveRegion_spec (addr : Nat) (type : RegionType) (env : Env) (I : s.Inv l T) :
    ∃ r s', s.treeRemoveRegion addr type env = .ok (r, s') ∧
      match r with
      | .error _ => Kept l T (env.ipcLost = false ∧ env.replyLost = false) s'
      | .ok p => ∃ c ∈ l, p = c.ptr ∧ c.reg.used = true ∧ ∃ T', s'.Inv l T' ∧
          ∀ e, e ∈ T'.toList ↔ e ∈ T.toList ∧ e ≠ c.entry := by
  rw [treeRemoveRegion]
  cases hipc : env.ipcLost with
  | true => exact ⟨.error .eipc, s, rfl, .same I⟩
  | false =>
    have hremove := removeRegion_spec addr type I
    obtain ⟨e, -, hrun⟩ | ⟨c, hc, s', T', hrun, I', hused, -, hT'⟩ := hremove
    · rw [hrun]
      cases hreply : env.replyLost with
      | true => exact ⟨.error .eipc, s, rfl, .same I⟩
      | false => exact ⟨.error e, s, rfl, .same I⟩
    · rw [hrun]
      cases hreply : env.replyLost with
      | true => exact ⟨.error .eipc, s', rfl, l, T', I', fun h => nomatch h.2⟩
      | false => exact ⟨.ok c.ptr, s', rfl, c, hc, rfl, hused, T', I', hT'⟩

/-- The region that was taken out of the tree becomes free. -/
theorem release_spec {T' : Tree} {c : Cell} {P : Prop} (I : s.Inv l T') (hc : c ∈ l)
    (hused : c.reg.used = true) (hT : ∀ e, e ∈ T'.toList ↔ e ∈ T.toList ∧ e ≠ c.entry) :
    ∃ s', s.freeRegion c.ptr = .ok s' ∧ Kept l T P s' := by
  obtain ⟨l', s', hrun, I', hu⟩ := freeRegion_spec I hc hused fun h => ((hT _).mp h).2 rfl
  refine ⟨s', hrun, l', T', I', fun _ H e he => ?_⟩
  obtain ⟨he, hne⟩ := hu e he
  exact (hT e).mpr ⟨H e he, hne⟩

theorem detach_spec (I : s.Inv l T) :
    Meets (s.detach addr env)
      (fun q => Kept l T (env.ipcLost = false ∧ env.replyLost = false) q.2) fun _ => False := by
  obtain ⟨r, s', hrun, hr⟩ := treeRemoveRegion_spec addr .dataspace env I
  refine Meets.bind_ok hrun ?_
  cases r with
  | error e => exact hr
  | ok p =>
    obtain ⟨c, hc, rfl, hused, T', I', hT'⟩ := hr
    obtain ⟨s'', hfree, hk⟩ := release_spec I' hc hused hT'
    refine Meets.bind_ok hfree ?_
    exact hk

theorem areaClearRegion_spec (I : s.Inv l T) :
    Meets (s.areaClearRegion addr env)
      (fun q => Kept l T (env.ipcLost = false ∧ env.replyLost = false) q.2) fun _ => False := by
  have hkey : (⟨addr, addr⟩ : Key).start ≤ (⟨addr, addr⟩ : Key).last := le_rfl
  rw [areaClearRegion, findUsedRegion]
  obtain ⟨e, -, -, hfind⟩ | ⟨-, hfind⟩ := Avl.find_spec I.tree hkey
  · refine Meets.bind_ok hfind ?_
    dsimp only
    split
    · exact .same I
    obtain ⟨r, s', hrun, hr⟩ := treeRemoveRegion_spec addr (s.region e.data).flags.type env I
    refine Meets.bind_ok hrun ?_
    cases r with
    | error e => exact hr
    | ok p =>
      obtain ⟨c, hc, rfl, hused, T', I', hT'⟩ := hr
      obtain ⟨s'', hfree, hk⟩ := release_spec I' hc hused hT'
      refine Meets.bind_ok hfree ?_
      exact hk
  · refine Meets.bind_ok hfind ?_
    exact .same I

theorem kept_of_used {l' : List Cell} {P : Prop} (I : s.Inv l' T) (h : ∀ e, Used l' e ↔ Used l e) :
    Kept l T P s := ⟨l', T, I, fun _ H e he => H e ((h e).mp he)⟩

theorem areaRelease_spec (I : s.Inv l T) :
    Meets (s.areaRelease area) (fun q => ∀ P, Kept l T P q.2)
      fun e => e = .diverges ∧ area = defaultArea :=
  (resetArea_spec I).bind fun _ ⟨_, I', hu⟩ _ => kept_of_used I' hu

theorem areaReleaseAddr_spec (I : s.Inv l T) :
    Meets (s.areaReleaseAddr addr) (fun q => ∀ P, Kept l T P q.2) fun _ => False := by
  rw [areaReleaseAddr, findRegion]
  by_cases hout : addr < s.vmStart ∨ s.vmEnd < addr
  · rw [if_pos hout]
    exact fun P => .same I
  rw [if_neg hout]
  push Not at hout
  obtain ⟨c, hc, hwalk, -⟩ := I.walk hout.1 hout.2
  rw [hwalk]
  simp only [ok_bind, pure_bind]
  split
  · exact fun P => .same I
  · rename_i harea
    exact Meets.bind ((resetArea_spec I).mono (fun _ h => h) fun e he => harea he.2)
      fun _ ⟨_, I', hu⟩ _ => kept_of_used I' hu

end Rm

/-- The calls of the region mapper that take a region out of the tree succeed. -/
def RmOp.Lossless (env : Env) : RmOp → Prop
  | .detach _ | .areaClearRegion _ => env.ipcLost = false ∧ env.replyLost = false
  | _ => True

namespace Rm
variable {s s' : Rm} {l : List Cell} {T : Tree} {env : Env} {op : RmOp} {out : Out}

/-- One operation. It fails to return only where a reservation gets the number of the default area,
and where the default area is to be released. -/
theorem step_spec (I : s.Inv l T) (henv : env.Fresh s) (hw : op.Words) (hs : op.Sound s env) :
    Meets (s.step env op) (fun q => Kept l T (op.Lossless env) q.2)
      fun e => e = .assertion ∨ e = .diverges := by
  cases op with
  | attach ds area addr size dsOffs rights flags =>
    exact (doAttach_spec I henv hw.1 hs).mono (fun _ h => h _) fun _ h => h.elim
  | areaSetup addr size area type flags pager =>
    exact (doAreaSetup_spec I henv hw.1 hw.2 hs).mono (fun _ h => h _) fun _ h => h.elim
  | reserve addr size flags =>
    exact (doReserve_spec I henv hw.1 hw.2 hs.1 hs.2).mono (fun _ h => h _) fun _ h => .inl h
  | detach addr => exact (detach_spec I).mono (fun _ h => h) fun _ h => h.elim
  | areaClearRegion addr => exact (areaClearRegion_spec I).mono (fun _ h => h) fun _ h => h.elim
  | areaRelease area => exact (areaRelease_spec I).mono (fun _ h => h _) fun _ h => .inr h.1
  | areaReleaseAddr addr =>
    exact (areaReleaseAddr_spec I).mono (fun _ h => h _) fun _ h => h.elim

end Rm

/-- The states of L4RM after `l4rm_init_regions` and any sequence of operations that all satisfy
`C`. -/
inductive RmReachable (C : Rm → Env → RmOp → Prop) : Rm → Prop
  | init {vmStart vmEnd taskPager : Nat} {p : Ptr} (hpage : pageSize ∣ vmStart)
      (hle : vmStart ≤ vmEnd) (hword : vmEnd < 4294967296) :
      RmReachable C (.init vmStart vmEnd taskPager p)
  | step {s s' : Rm} {env : Env} {op : RmOp} {out : Out} (h : RmReachable C s)
      (henv : env.Fresh s) (hw : op.Words) (hc : C s env op) (hrun : s.step env op = .ok (out, s')) :
      RmReachable C s'

/-- The region list is a consistent doubly linked list of regions that tile the address space. -/
def Rm.Partitioned (s : Rm) : Prop :=
  ∃ l : List Ptr, IsDList s.next s.prev s.head l ∧ l.Nodup ∧
    Tiles (fun p => (s.region p).start) (fun p => (s.region p).last) s.vmStart l (s.vmEnd + 1) ∧
    (∀ p ∈ l, pageSize ∣ (s.region p).start) ∧
    l.IsChain fun p q => ¬((s.region p).used = false ∧ (s.region q).used = false ∧
      (s.region p).flags = (s.region q).flags)

theorem init_inv {vmStart vmEnd taskPager : Nat} {p : Ptr} (hpage : pageSize ∣ vmStart)
    (hle : vmStart ≤ vmEnd) (hword : vmEnd < 4294967296) :
    (Rm.init vmStart vmEnd taskPager p).Inv [⟨p, ⟨vmStart, vmEnd, {}, .none⟩⟩] .nil := by
  refine ⟨⟨⟨rfl, rfl, rfl, trivial⟩, ?_, by simp, by simp [Rm.init]⟩, by simp [Rm.init],
    ⟨⟨rfl, hle, rfl⟩, by simpa [Cell.start] using hpage⟩, hword, .singleton _, ?_, Avl.init_inv,
    by simp [PTree.toList]⟩
  · simp [Rm.init]
  · intro c hc h0
    obtain rfl : c = _ := by simpa using hc
    exact absurd rfl h0

theorem RmReachable.inv {C : Rm → Env → RmOp → Prop} {s : Rm}
    (hC : ∀ s env op, C s env op → op.Sound s env) (h : RmReachable C s) : ∃ l T, s.Inv l T := by
  induction h with
  | init hpage hle hword => exact ⟨_, _, init_inv hpage hle hword⟩
  | step _ henv hw hc hrun ih =>
    obtain ⟨l, T, I⟩ := ih
    obtain ⟨l', T', I', -⟩ := (step_spec I henv hw (hC _ _ _ hc)).post hrun
    exact ⟨l', T', I'⟩

theorem Rm.InvBut.partitioned {s : Rm} {l : List Cell} {T : Tree} (I : s.Inv l T) :
    s.Partitioned := by
  refine ⟨l.map Cell.ptr, I.shows.dlist, I.shows.nodup, I.layout.tiles.map fun c hc => ?_, ?_, ?_⟩
  · rw [I.shows.region c hc]
    exact ⟨rfl, rfl⟩
  · intro p hp
    obtain ⟨c, hc, rfl⟩ := List.mem_map.mp hp
    rw [I.shows.region c hc]
    exact I.layout.aligned c hc
  · rw [List.isChain_map]
    refine I.chain.imp_of_mem_imp fun c d hc hd h ⟨h1, h2, h3⟩ => ?_
    rw [I.shows.region c hc] at h1 h3
    rw [I.shows.region d hd] at h2 h3
    exact h h1 h2 h3

/-- In every run whose operations are sound the region list is a partition of the address space. -/
theorem regionList_partition {s : Rm} (h : RmReachable (fun s env op => op.Sound s env) s) :
    s.Partitioned := by
  obtain ⟨l, T, I⟩ := h.inv fun _ _ _ h => h
  exact I.partitioned

/-- An operation that returns, and what is observed of the state it leaves. -/
theorem step_observed {s : Rm} {env : Env} {op : RmOp} {α : Type} {a : α} (f : Rm → α)
    (h : (s.step env op).toOption.map (fun q => f q.2) = some a) :
    ∃ out s', s.step env op = .ok (out, s') ∧ f s' = a := by
  cases hrun : s.step env op with
  | error e =>
    rw [hrun] at h
    cases h
  | ok q =>
    rw [hrun] at h
    exact ⟨q.1, q.2, rfl, Option.some.inj h⟩

/-- The address space that the next theorems start with, and the answers of the slab caches. -/
def smallVm : Rm := .init 4096 3221225471 0 1

def smallEnv : Env := { desc := some 2, tmp := some 3, node := some 2 }

theorem smallVm_fresh : smallEnv.Fresh smallVm where
  desc p hp := by cases hp; decide
  tmp t ht := by cases ht; decide
  node q hq := by cases hq; decide

theorem smallVm_reachable {C : Rm → Env → RmOp → Prop} : RmReachable C smallVm :=
  .init (by decide) (by decide) (by decide)

/-- Requests for one page at a fixed address. -/
theorem roomy_page {s : Rm} {area : Nat} {flags : RmFlags} : s.Roomy 8192 4096 area flags := by
  intro p _
  rw [RoomyIn, if_neg (by decide)]
  intro _ _ _ _ _
  have : 0 < Word.roundUp 4096 pageSize ∧
      Word.roundDown 8192 pageSize + Word.roundUp 4096 pageSize ≤ 4294967296 := by decide +kernel
  exact this

/-- A page of it is reserved. -/
theorem regionList_partition_page : ∃ out s',
    smallVm.step smallEnv (.reserve 8192 4096 {}) = .ok (out, s') ∧
      s'.region 2 = ⟨8192, 12287, ⟨.free, 2⟩, .none⟩ ∧ s'.Partitioned := by
  obtain ⟨out, s', hrun, hobs⟩ : ∃ out s',
      smallVm.step smallEnv (.reserve 8192 4096 {}) = .ok (out, s') ∧
        s'.region 2 = ⟨8192, 12287, ⟨.free, 2⟩, .none⟩ :=
    step_observed (fun s => s.region 2) (by decide +kernel)
  have hw : (RmOp.reserve 8192 4096 {}).Words := ⟨by decide, by decide⟩
  have hsound : (RmOp.reserve 8192 4096 {}).Sound smallVm smallEnv := ⟨roomy_page, rfl⟩
  exact ⟨out, s', hrun, hobs,
    regionList_partition (smallVm_reachable.step smallVm_fresh hw hsound hrun)⟩

/-- A reservation of no bytes makes a region that ends before it starts. -/
theorem regionList_reserve_empty : ∃ out s',
    smallVm.step smallEnv (.reserve 8192 0 {}) = .ok (out, s') ∧
      RmReachable (fun _ _ _ => True) s' ∧ s'.region 2 = ⟨8192, 8191, ⟨.free, 2⟩, .none⟩ ∧
      ¬s'.Partitioned := by
  obtain ⟨out, s', hrun, hobs⟩ : ∃ out s', smallVm.step smallEnv (.reserve 8192 0 {}) =
      .ok (out, s') ∧ (s'.head, s'.next 1, s'.next 2, s'.next 3, s'.region 2) =
        (some 1, some 2, some 3, none, ⟨8192, 8191, ⟨.free, 2⟩, .none⟩) :=
    step_observed (fun s => (s.head, s.next 1, s.next 2, s.next 3, s.region 2)) (by decide +kernel)
  simp only [Prod.mk.injEq] at hobs
  obtain ⟨hhead, h1, h2, h3, hreg⟩ := hobs
  have hw : (RmOp.reserve 8192 0 {}).Words := ⟨by decide, by decide⟩
  refine ⟨out, s', hrun, smallVm_reachable.step smallVm_fresh hw trivial hrun, hreg, ?_⟩
  intro ⟨l, hlist, _, htiles, _⟩
  have hl : l = [1, 2, 3] := by
    refine hlist.2.isSList.unique ?_
    rw [← hlist.1, hhead]
    exact ⟨rfl, h1, h2, h3⟩
  have hbounds := (htiles.bounds (x := 2) (by simp [hl])).2.1
  rw [hreg] at hbounds
  exact absurd hbounds (by decide)


/-! ## List and tree -/

/-- The requests do not wrap around, and all calls of the region mapper succeed. -/
def RmOp.Regular (s : Rm) (env : Env) : RmOp → Prop
  | .attach ds area addr size dsOffs _ flags =>
    ds.isSome → s.Roomy addr (attachSize size dsOffs) area flags ∧ Reliable flags env
  | .areaSetup addr size area type flags pager =>
    (s.setupType type pager).isSome → s.Roomy addr size area flags ∧ Reliable flags env
  | .reserve addr size flags => s.Roomy addr size defaultArea flags ∧ Reliable flags env
  | .detach _ | .areaClearRegion _ => env.ipcLost = false ∧ env.replyLost = false
  | _ => True

/-- Reservations carry documented flags only. -/
def RmOp.Documented : RmOp → Prop
  | .reserve _ _ flags => flags.treeInsert = false
  | _ => True

theorem RmOp.Regular.sound {s : Rm} {env : Env} {op : RmOp} (h : op.Regular s env)
    (hd : op.Documented) : op.Sound s env ∧ op.Lossless env := by
  cases op with
  | attach | areaSetup => exact ⟨h, trivial⟩
  | reserve => exact ⟨⟨h.1, hd⟩, trivial⟩
  | detach | areaClearRegion => exact ⟨trivial, h⟩
  | areaRelease | areaReleaseAddr => exact ⟨trivial, trivial⟩

theorem RmReachable.complete {s : Rm}
    (h : RmReachable (fun s env op => op.Regular s env ∧ op.Documented) s) :
    ∃ l T, s.Inv l T ∧ Complete l T := by
  induction h with
  | init hpage hle hword =>
    refine ⟨_, _, init_inv hpage hle hword, fun e ⟨c, hc, hu, _⟩ => ?_⟩
    obtain rfl : c = _ := by simpa using hc
    cases hu
  | step _ henv hw hc hrun ih =>
    obtain ⟨l, T, I, H⟩ := ih
    obtain ⟨hs, hl⟩ := hc.1.sound hc.2
    obtain ⟨l', T', I', H'⟩ := (step_spec I henv hw hs).post hrun
    exact ⟨l', T', I', H' hl H⟩

/-- The used regions of the list are the data of the tree. -/
def Rm.Agrees (s : Rm) : Prop :=
  ∃ l, IsDList s.next s.prev s.head l ∧ ∀ e, e ∈ s.tree.contents ↔
    ∃ p ∈ l, (s.region p).used = true ∧ e = ⟨⟨(s.region p).start, (s.region p).last⟩, p⟩

/-- The region tree and the walk of the region list give the same answer for every address. -/
def Rm.SameAnswers (s : Rm) : Prop :=
  ∀ addr, ∃ o, s.findRegion addr = .ok o ∧
    s.findUsedRegion addr = .ok (o.filter fun p => (s.region p).used)

namespace Rm
variable {s : Rm} {l : List Cell} {T : Tree}

theorem InvBut.agrees (I : s.Inv l T) (H : Complete l T) : s.Agrees := by
  refine ⟨l.map Cell.ptr, I.shows.dlist, fun e => I.tree.mem_contents.trans ?_⟩
  constructor
  · intro he
    obtain ⟨c, hc, hu, rfl⟩ := I.entries e he
    refine ⟨c.ptr, List.mem_map_of_mem hc, ?_⟩
    rw [I.shows.region c hc]
    exact ⟨hu, rfl⟩
  · intro ⟨p, hp, hu, he⟩
    obtain ⟨c, hc, rfl⟩ := List.mem_map.mp hp
    rw [I.shows.region c hc] at hu he
    exact H e ⟨c, hc, hu, he⟩

theorem InvBut.sameAnswers (I : s.Inv l T) (H : Complete l T) : s.SameAnswers := by
  intro addr
  have hkey : (⟨addr, addr⟩ : Key).start ≤ (⟨addr, addr⟩ : Key).last := le_rfl
  -- an entry that is found belongs to the region that contains the address
  have hfound : ∀ e ∈ T.toList, (⟨addr, addr⟩ : Key).isIn e.key = true →
      ∃ c ∈ l, c.reg.used = true ∧ e.data = c.ptr ∧ c.start ≤ addr ∧ addr ≤ c.last := by
    intro e he hin
    obtain ⟨c, hc, hu, rfl⟩ := I.entries e he
    have hin := Avl.isIn_iff.mp hin
    exact ⟨c, hc, hu, rfl, hin.1, hin.2⟩
  rw [findRegion, findUsedRegion]
  by_cases hout : addr < s.vmStart ∨ s.vmEnd < addr
  · refine ⟨none, by rw [if_pos hout]; rfl, ?_⟩
    obtain ⟨e, he, hin, -⟩ | ⟨-, hfind⟩ := Avl.find_spec I.tree hkey
    · obtain ⟨c, hc, -, -, h1, h2⟩ := hfound e he hin
      have := I.layout.tiles.bounds hc
      omega
    · exact hfind
  · rw [if_neg hout]
    push Not at hout
    obtain ⟨c, hc, hwalk, h1, h2⟩ := I.walk hout.1 hout.2
    refine ⟨some c.ptr, by rw [hwalk]; rfl, ?_⟩
    rw [Option.filter_some, I.shows.region c hc]
    obtain ⟨e, he, hin, hfind⟩ | ⟨hnone, hfind⟩ := Avl.find_spec I.tree hkey
    · obtain ⟨d, hd, hu, hdata, h3, h4⟩ := hfound e he hin
      obtain rfl := I.layout.tiles.unique hc hd h1 h2 h3 h4
      rw [hfind, hdata, if_pos hu]
    · cases hu : c.reg.used with
      | false => exact hfind
      | true =>
        have := hnone _ (H _ ⟨c, hc, hu, rfl⟩)
        rw [Avl.isIn_iff.mpr ⟨h1, h2⟩] at this
        cases this

end Rm

/-- In every run of regular operations with documented flags the region list and the region tree
agree. -/
theorem regionTree_agrees {s : Rm}
    (h : RmReachable (fun s env op => op.Regular s env ∧ op.Documented) s) :
    s.Agrees ∧ s.SameAnswers ∧ ∀ env op, env.Fresh s → op.Words → op.Regular s env →
      op.Documented → s.step env op ≠ .error .corrupted := by
  obtain ⟨l, T, I, H⟩ := h.complete
  refine ⟨I.agrees H, I.sameAnswers H, fun env op henv hw hr hd hrun => ?_⟩
  obtain hfault | hfault := (step_spec I henv hw (hr.sound hd).1).fail hrun
  · cases hfault
  · cases hfault


/-- A dataspace is attached. -/
theorem regionTree_agrees_page : ∃ out s',
    smallVm.step smallEnv (.attach (some 7) 0 8192 4096 0 3 {}) = .ok (out, s') ∧
      (s'.findUsedRegion 9000).toOption = some (some 2) ∧ s'.Agrees ∧ s'.SameAnswers := by
  obtain ⟨out, s', hrun, hobs⟩ : ∃ out s',
      smallVm.step smallEnv (.attach (some 7) 0 8192 4096 0 3 {}) = .ok (out, s') ∧
        (s'.findUsedRegion 9000).toOption = some (some 2) :=
    step_observed (fun s => (s.findUsedRegion 9000).toOption) (by decide +kernel)
  have hw : (RmOp.attach (some 7) 0 8192 4096 0 3 {}).Words := ⟨by decide, by decide, by decide⟩
  have hsize : attachSize 4096 0 = 4096 := by decide +kernel
  have hregular : (RmOp.attach (some 7) 0 8192 4096 0 3 {}).Regular smallVm smallEnv :=
    fun _ => ⟨by rw [hsize]; exact roomy_page, rfl, .inr ⟨rfl, rfl⟩⟩
  have h := regionTree_agrees (smallVm_reachable.step smallVm_fresh hw ⟨hregular, trivial⟩ hrun)
  exact ⟨out, s', hrun, hobs, h.1, h.2.1⟩

/-- The fault of an operation. -/
def Rm.faultOf (s : Rm) (env : Env) (op : RmOp) : Option Fault :=
  match s.step env op with
  | .ok _ => none
  | .error e => some e

theorem step_eq_error {s : Rm} {env : Env} {op : RmOp} {e : Fault} (h : s.faultOf env op = some e) :
    s.step env op = .error e := by
  rw [faultOf] at h
  split at h
  · cases h
  · rename_i hrun
    rw [hrun, Option.some.inj h]

def nextEnv : Env := { desc := some 4, tmp := some 5, node := some 3 }

/-- What the next theorem observes of a state. -/
def probe (s : Rm) : Bool × Option (Option Ptr) × Option (Option Ptr) × Option Fault :=
  ((s.region 2).used, (s.findRegion 8192).toOption, (s.findUsedRegion 8192).toOption,
    s.faultOf nextEnv (.attach (some 7) 2 8192 4096 0 3 {}))

/-- A reservation with the flag `L4RM_TREE_INSERT` enters a free region into the tree. The next
dataspace that is attached to the area reaches the panic. -/
theorem regionTree_reserve_insert : ∃ out s',
    smallVm.step smallEnv (.reserve 8192 4096 { treeInsert := true }) = .ok (out, s') ∧
      RmReachable (fun s env op => op.Regular s env) s' ∧ ¬s'.SameAnswers ∧
      (RmOp.attach (some 7) 2 8192 4096 0 3 {}).Regular s' nextEnv ∧
      s'.step nextEnv (.attach (some 7) 2 8192 4096 0 3 {}) = .error .corrupted := by
  obtain ⟨out, s', hrun, hobs⟩ : ∃ out s',
      smallVm.step smallEnv (.reserve 8192 4096 { treeInsert := true }) = .ok (out, s') ∧
        probe s' = (false, some (some 2), some (some 2), some .corrupted) :=
    step_observed probe (by decide +kernel)
  simp only [probe, Prod.mk.injEq] at hobs
  obtain ⟨hfree, hfind, hused, hfault⟩ := hobs
  have hw : (RmOp.reserve 8192 4096 { treeInsert := true }).Words := ⟨by decide, by decide⟩
  have hregular : (RmOp.reserve 8192 4096 { treeInsert := true }).Regular smallVm smallEnv :=
    ⟨roomy_page, rfl, .inr ⟨rfl, rfl⟩⟩
  have hsize : attachSize 4096 0 = 4096 := by decide +kernel
  refine ⟨out, s', hrun, smallVm_reachable.step smallVm_fresh hw hregular hrun, fun h => ?_,
    fun _ => ⟨by rw [hsize]; exact roomy_page, rfl, .inr ⟨rfl, rfl⟩⟩, step_eq_error hfault⟩
  obtain ⟨o, ho, hu⟩ := h 8192
  rw [ho] at hfind
  rw [hu] at hused
  cases hfind
  simp [hfree, Except.toOption] at hused


end L4env.L4rm
