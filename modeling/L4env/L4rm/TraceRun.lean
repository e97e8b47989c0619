import L4env.L4rm.Placement
import L4env.L4rm.Trace

/-!
# L4RM: failed operations

An operation that fails leaves no trace, except where it fails too late: at the region tree after the new
region has been put into the list, at the reply to a removal that was carried out, and with the lock
taken.
-/

namespace L4env.L4rm

namespace Rm
variable {s s' : Rm} {l l' : List Cell} {T : Tree} {p rp : Ptr} {addr size area : Nat}
  {flags : RmFlags} {env : Env}

/-! ## Descriptors in the list -/

/-- The descriptor `p` is linked in a well-formed list. -/
def Linked (s : Rm) (p : Ptr) : Prop := ∃ l, s.Shows l ∧ p ∈ l.map Cell.ptr

/-- A linked descriptor that is released is no longer allocated. -/
theorem Linked.descFree (h : s.Linked p) (hnd : s.live.Nodup) : ¬∃ l, (s.descFree p).Shows l := by
  obtain ⟨l, S, hp⟩ := h
  rintro ⟨l', S'⟩
  have hsame : l'.map Cell.ptr = l.map Cell.ptr := by
    have h := S.dlist.2.isSList
    have h' := S'.dlist.2.isSList
    rw [← S.dlist.1] at h
    rw [← S'.dlist.1] at h'
    exact IsSList.unique h' h
  rw [← hsame] at hp
  obtain ⟨c, hc, rfl⟩ := List.mem_map.mp hp
  exact hnd.not_mem_erase (S'.live c hc)

/-- The list of a new region: the descriptor is linked, or nothing has changed. -/
theorem insertRegion_cases {c : Cell} {tmp : Option Ptr} (S : s.Shows l) (hc : c ∈ l)
    (hp : p ∉ l.map Cell.ptr) (hlive : p ∈ s.live) (hnd : s.live.Nodup)
    (htmp : ∀ t, tmp = some t → t ∉ s.live) :
    s.insertRegion p c.ptr tmp = .error .assertion ∨ s.insertRegion p c.ptr tmp = .ok (.enomem, s) ∨
      ∃ s', s.insertRegion p c.ptr tmp = .ok (.ok, s') ∧ s'.Linked p ∧ s'.live.Nodup := by
  obtain ⟨l₁, l₂, rfl⟩ := List.append_of_mem hc
  have hp : p ∉ l₁.map Cell.ptr ++ c.ptr :: l₂.map Cell.ptr := by simpa using hp
  have hpc := (Shows.new_notMem hp).1
  by_cases hflags : (s.region p).flags = c.reg.flags
  · rw [← S.region c hc] at hflags
    exact .inl (insertRegion_assert hflags)
  by_cases h1 : c.reg.start = (s.region p).start <;> by_cases h2 : c.reg.last = (s.region p).last
  · refine .inr (.inr ⟨_, insertRegion_replace S hpc.symm hflags h1 h2, ?_, hnd.erase _⟩)
    exact ⟨_, shows_replace S hp hlive, by simp⟩
  · refine .inr (.inr ⟨_, insertRegion_front S hpc.symm hflags h1 h2, ?_, hnd⟩)
    exact ⟨_, shows_front S hp hlive, by simp⟩
  · refine .inr (.inr ⟨_, insertRegion_back S hflags h1 h2, ?_, hnd⟩)
    exact ⟨_, shows_back S hp hlive, by simp⟩
  · cases tmp with
    | none => exact .inr (.inl (insertRegion_nomem S hflags h1 h2))
    | some t =>
      have htl := htmp t rfl
      have ht : t ∉ l₁.map Cell.ptr ++ c.ptr :: l₂.map Cell.ptr := by
        intro h
        rw [← List.map_cons, ← List.map_append] at h
        obtain ⟨d, hd, rfl⟩ := List.mem_map.mp h
        exact htl (S.live d hd)
      have hpt : p ≠ t := fun e => htl (e ▸ hlive)
      refine .inr (.inr ⟨_, insertRegion_split S (Shows.new_notMem ht).1.symm hflags h1 h2, ?_,
        List.nodup_cons.mpr ⟨htl, hnd⟩⟩)
      exact ⟨_, shows_split S hp ht hpt hlive, by simp⟩

/-- A region that becomes free is joined with a neighbour, and its descriptor or that of the neighbour
released, or it stays in the list. -/
theorem modifyRegion_linked {l₁ l₂ : List Cell} {c : Cell} {f : RegionFlags}
    (S : s.Shows (l₁ ++ c :: l₂)) (hnd : s.live.Nodup) (hf : f.type = .free) :
    ∃ s', s.modifyRegion c.ptr f = .ok s' ∧ s'.live.Nodup ∧
      (c.ptr ∈ s.modifyFrees c.ptr f ∨ s'.Linked c.ptr) := by
  have S₀ := S.setFlags (f := f)
  have hreg := S₀.region ⟨c.ptr, { c.reg with flags := f }⟩ (by simp)
  have hfree : ((s.setFlags c.ptr f).region c.ptr).used = false := by
    rw [hreg]
    simp [Region.used, hf]
  rw [modifyRegion, modifyFrees]
  simp only [hfree, Bool.false_eq_true, if_false]
  have hnd₀ : (s.setFlags c.ptr f).live.Nodup := hnd
  obtain ⟨-, hprev⟩ | ⟨l₀, a, s₁, rfl, -, hprev, S₁, -, hnd₁⟩ := joinPrev_spec S₀ hnd₀
  · have hprev : (s.setFlags c.ptr f).joinPrev c.ptr = (c.ptr, s.setFlags c.ptr f) := hprev
    simp only [hprev, if_true, List.nil_append]
    obtain ⟨-, hnext⟩ | ⟨b, l₃, s₂, rfl, hflags, hnext, -, -, hnd₂⟩ := joinNext_spec S₀ hnd₀
    · exact ⟨_, hnext, hnd₀, .inr ⟨_, S₀, by simp⟩⟩
    · refine ⟨s₂, hnext, hnd₂, .inl ?_⟩
      have hb := S₀.region b (by simp)
      have hlink : (s.setFlags c.ptr f).next c.ptr = some b.ptr := S₀.middle.2
      rw [← hreg, ← hb] at hflags
      simp only [hlink]
      rw [if_pos hflags]
      exact List.mem_singleton.mpr rfl
  · have hprev : (s.setFlags c.ptr f).joinPrev c.ptr = (a.ptr, s₁) := hprev
    have hne : a.ptr ≠ c.ptr := by
      have := S₀.nodup
      simp only [List.map_append, List.map_cons, List.nodup_append] at this
      exact this.2.2 a.ptr (by simp) c.ptr (by simp)
    simp only [hprev, if_neg hne]
    have hnext := joinNext_spec S₁ hnd₁
    obtain ⟨-, hnext⟩ | ⟨b, l₃, s₂, -, -, hnext, -, -, hnd₂⟩ := hnext
    · exact ⟨_, hnext, hnd₁, .inl (by simp)⟩
    · exact ⟨_, hnext, hnd₂, .inl (by simp)⟩

/-- `l4rm_free_region` on a linked descriptor releases it, or leaves it in the list. -/
theorem Linked.freeRegion (h : s.Linked p) (hnd : s.live.Nodup) :
    ∃ s', s.freeRegion p = .ok s' ∧ s'.live.Nodup ∧ (p ∈ s.freeFrees p ∨ s'.Linked p) := by
  obtain ⟨l, S, hp⟩ := h
  obtain ⟨c, hc, rfl⟩ := List.mem_map.mp hp
  rw [Rm.freeRegion, freeFrees]
  by_cases hused : (s.region c.ptr).used = false
  · simp only [if_pos hused]
    exact ⟨s, rfl, hnd, .inr ⟨l, S, hp⟩⟩
  · simp only [if_neg hused]
    obtain ⟨l₁, l₂, rfl⟩ := List.append_of_mem hc
    have S₀ := S.setFlags (f := { (s.region c.ptr).flags with type := .free })
    have hreg := S₀.region ⟨c.ptr, _⟩ List.mem_append_cons_self
    have hmod := modifyRegion_linked (f := ((s.setFlags c.ptr
      { (s.region c.ptr).flags with type := .free }).region c.ptr).flags) S₀ hnd (by rw [hreg])
    exact hmod

/-! ## The search and the tree -/

theorem place_error {e : RmRet} (h : s.place addr size area flags = .ok (.error e)) : e ≠ .ok := by
  rw [place] at h
  split at h
  · dsimp only at h
    rw [findFreeRegion] at h
    split at h
    · cases h
    · cases h
      simp
    · cases h
  · dsimp only at h
    rw [findRegion'] at h
    split at h
    · cases h
      simp
    · cases hwalk : s.walk (Word.roundDown addr pageSize) with
      | error e => rw [hwalk] at h; cases h
      | ok rp =>
        rw [hwalk] at h
        simp only [ok_bind] at h
        split at h
        · cases h
          simp
        · cases h

/-- The region that is found is in the list. -/
theorem place_mem {a sz : Nat} (I : s.Inv l T)
    (h : s.place addr size area flags = .ok (.ok (rp, a, sz))) : ∃ c ∈ l, rp = c.ptr := by
  rw [place] at h
  split at h
  · dsimp only at h
    rw [findFreeRegion, I.shows.scan_eq fun r => fits r (findArgs (Word.roundUp size pageSize) flags).1
      area (findArgs (Word.roundUp size pageSize) flags).2] at h
    cases hfind : l.find? fun c => fits c.reg (findArgs (Word.roundUp size pageSize) flags).1
      area (findArgs (Word.roundUp size pageSize) flags).2 with
    | none =>
      rw [hfind] at h
      cases h
    | some c =>
      rw [hfind] at h
      cases h
      exact ⟨c, List.mem_of_find?_eq_some hfind, rfl⟩
  · dsimp only at h
    rw [findRegion'] at h
    split at h
    · cases h
    · rename_i hout
      push Not at hout
      obtain ⟨c, hc, hwalk, -⟩ := I.walk hout.1 hout.2.1
      rw [hwalk] at h
      simp only [ok_bind] at h
      split at h
      · cases h
      · cases h
        exact ⟨c, hc, rfl⟩

/-- The tree is all that an insertion into the tree changes. -/
theorem treeInsertRegion_linked {ret : RmRet} (h : s.treeInsertRegion p flags env = .ok (ret, s'))
    (hp : s.Linked rp) : s'.Linked rp ∧ s'.live = s.live := by
  have hadd {key : Key} {node : Option Ptr} {ret : RmRet} {s' : Rm}
      (h : s.addRegion key p node = .ok (ret, s')) : ∃ t, s' = { s with tree := t } := by
    rw [addRegion] at h
    cases hrun : s.tree.insert key p node with
    | error e => rw [hrun] at h; cases h
    | ok q =>
      obtain ⟨r, t⟩ := q
      rw [hrun] at h
      refine ⟨t, ?_⟩
      cases r <;> cases h <;> rfl
  have hsame : s' = s ∨ ∃ t, s' = { s with tree := t } := by
    rw [treeInsertRegion] at h
    dsimp only at h
    split at h
    · exact .inr (hadd h)
    · split at h
      · cases h
        exact .inl rfl
      · cases hrun : s.addRegion ⟨(s.region p).start, (s.region p).last⟩ p env.node with
        | error e => rw [hrun] at h; cases h
        | ok q =>
          obtain ⟨r, s₁⟩ := q
          rw [hrun] at h
          simp only [ok_bind] at h
          split at h <;> cases h <;> exact .inr (hadd hrun)
  obtain ⟨l, S, hl⟩ := hp
  obtain rfl | ⟨t, rfl⟩ := hsame
  · exact ⟨⟨l, S, hl⟩, rfl⟩
  · exact ⟨⟨l, ⟨S.dlist, S.region, S.nodup, S.live⟩, hl⟩, rfl⟩

/-- The new region is put into the list, and the insertion into the tree fails. -/
def NewFails (s : Rm) (p : Ptr) (addr size area : Nat) (flags : RmFlags) (env : Env) : Prop :=
  flags.treeInsert = true ∧ ∃ s₁ ret s₂,
    s.newRegion p addr size area { flags with treeInsert := false } env = .ok (.ok, s₁) ∧
      s₁.treeInsertRegion p flags env = .ok (ret, s₂) ∧ ret ≠ .ok ∧ ret ≠ .eexists

/-- Attach, setup or reserve would succeed without the tree, and the insertion into the tree fails. -/
def InsertFails (s : Rm) (type : RegionType) (data : RegionData) (addr size area : Nat)
    (flags : RmFlags) (env : Env) : Prop :=
  flags.treeInsert = true ∧ ∃ r s₁ ret s₂,
    s.create type data addr size area { flags with treeInsert := false } env = .ok (.ok, r, s₁) ∧
      s₁.treeInsertRegion r flags env = .ok (ret, s₂) ∧ ret ≠ .ok ∧ ret ≠ .eexists

theorem insertFails_iff {type : RegionType} {data : RegionData} {s₀ : Rm}
    (h : s.descAlloc env.desc = some (p, s₀)) :
    s.InsertFails type data addr size area flags env ↔
      (s₀.setRegion p { s₀.region p with flags := { type := type }, data := data }).NewFails p addr
        size area flags env := by
  unfold InsertFails NewFails create
  rw [h]
  refine and_congr_right fun _ => ?_
  constructor
  · rintro ⟨r, s₁, ret, s₂, hrun, hins⟩
    dsimp only at hrun
    cases hnew : (s₀.setRegion p { s₀.region p with flags := { type := type }, data := data }).newRegion
      p addr size area { flags with treeInsert := false } env with
    | error e =>
      rw [hnew] at hrun
      cases hrun
    | ok q =>
      obtain ⟨ret', s'⟩ := q
      rw [hnew] at hrun
      simp only [ok_bind] at hrun
      split at hrun
      · rename_i hne
        cases hrun
        exact absurd rfl hne
      · rename_i heq
        cases hrun
        rw [not_not.mp heq]
        exact ⟨_, _, _, rfl, hins⟩
  · rintro ⟨s₁, ret, s₂, hnew, hins⟩
    refine ⟨p, s₁, ret, s₂, ?_, hins⟩
    dsimp only
    rw [hnew]
    rfl

/-- The call that takes a region of the type out of the tree is carried out, and its reply is lost. -/
def RemoveLost (s : Rm) (addr : Nat) (type : RegionType) (env : Env) : Prop :=
  env.ipcLost = false ∧ env.replyLost = true ∧
    ∃ p, s.tree.find ⟨addr, addr⟩ = .ok (some p) ∧ (s.region p).flags.type = type

/-- A region of the type that is in the tree leaves it. -/
theorem removeRegion_found {type : RegionType} (I : s.Inv l T)
    (hfind : s.tree.find ⟨addr, addr⟩ = .ok (some p)) (htype : (s.region p).flags.type = type) :
    ∃ s', s.removeRegion addr type = .ok (.ok p, s') ∧ s'.tree.find ⟨addr, addr⟩ = .ok none := by
  have hkey : (⟨addr, addr⟩ : Key).start ≤ (⟨addr, addr⟩ : Key).last := le_rfl
  obtain ⟨e, he, ho, hrun⟩ | ⟨-, hrun⟩ := Avl.find_spec I.tree hkey
  · cases hfind.symm.trans hrun
    obtain ⟨c, hc, hused, rfl⟩ := I.entries e he
    have hreg : s.region c.ptr = c.reg := I.shows.region c hc
    obtain ⟨hno, -⟩ | ⟨t, T', l₁, l₂, d, hremove, ht, hT, hT'⟩ :=
      Avl.remove_spec ⟨c.reg.start, c.reg.last⟩ I.tree
    · exact absurd rfl (hno _ he)
    refine ⟨{ s with tree := t }, ?_, ?_⟩
    · rw [removeRegion, hfind]
      simp only [ok_bind]
      rw [if_pos htype]
      have hreg : s.region c.entry.data = c.reg := hreg
      rw [hreg, hremove]
      rfl
    · obtain ⟨e', he', ho', -⟩ | ⟨-, hnone⟩ := Avl.find_spec ht hkey
      · -- the entry that is left contains the address as well
        have hmem : e' ∈ T.toList := by
          rw [hT', List.mem_append] at he'
          rw [hT, List.mem_append, List.mem_cons]
          exact he'.imp_right .inr
        have hin := Avl.isIn_iff.mp ho
        have hin' := Avl.isIn_iff.mp ho'
        have hsame : e' = c.entry := I.overlap hc hmem
          ⟨hin.1.trans hin'.2, hin'.1.trans hin.2⟩
        have hd : (⟨⟨c.reg.start, c.reg.last⟩, d⟩ : Entry) = c.entry :=
          I.overlap hc (by rw [hT]; simp) ⟨(I.last_le hc).1, (I.last_le hc).1⟩
        rw [hd] at hT
        have hnd : (l₁ ++ c.entry :: l₂).Nodup := hT ▸ I.tree.ordered.nodup
        rw [hsame, hT'] at he'
        exact absurd he' (List.nodup_cons.mp (List.nodup_middle.mp hnd)).1
      · exact hnone
  · cases hfind.symm.trans hrun

theorem found_of_removeRegion {type : RegionType} (h : s.removeRegion addr type = .ok (.ok p, s')) :
    s.tree.find ⟨addr, addr⟩ = .ok (some p) ∧ (s.region p).flags.type = type := by
  rw [removeRegion] at h
  cases hfind : s.tree.find ⟨addr, addr⟩ with
  | error f =>
    rw [hfind] at h
    cases h
  | ok q =>
    rw [hfind] at h
    cases q with
    | none => cases h
    | some r =>
      simp only [ok_bind] at h
      split at h
      · rename_i htype
        cases hrun : s.tree.remove ⟨(s.region r).start, (s.region r).last⟩ with
        | error f =>
          rw [hrun] at h
          cases h
        | ok q =>
          obtain ⟨ret, t⟩ := q
          rw [hrun] at h
          simp only [ok_bind] at h
          split at h <;> cases h
          exact ⟨rfl, htype⟩
      · cases h

/-- How a region is taken out of the tree. -/
theorem treeRemoveRegion_ends (addr : Nat) (type : RegionType) (env : Env) (I : s.Inv l T) :
    (¬s.RemoveLost addr type env ∧ ∃ e, s.treeRemoveRegion addr type env = .ok (.error e, s)) ∨
    (s.RemoveLost addr type env ∧ ∃ s', s.treeRemoveRegion addr type env = .ok (.error .eipc, s') ∧
      s'.tree.find ⟨addr, addr⟩ ≠ s.tree.find ⟨addr, addr⟩) ∨
    (¬s.RemoveLost addr type env ∧ ∃ p s', s.treeRemoveRegion addr type env = .ok (.ok p, s')) := by
  by_cases hlost : s.RemoveLost addr type env
  · obtain ⟨hipc, hreply, p, hfind, htype⟩ := id hlost
    obtain ⟨s', hrun, hgone⟩ := removeRegion_found I hfind htype
    refine .inr (.inl ⟨hlost, s', ?_, ?_⟩)
    · simp only [treeRemoveRegion, hipc, hreply, hrun]
      rfl
    · rw [hgone, hfind]
      simp
  · cases hipc : env.ipcLost with
    | true => exact .inl ⟨hlost, .eipc, by simp only [treeRemoveRegion, hipc]; rfl⟩
    | false =>
      obtain ⟨e, -, hrun⟩ | ⟨c, -, s', -, hrun, -⟩ := removeRegion_spec addr type I
      · refine .inl ⟨hlost, if env.replyLost then .eipc else e, ?_⟩
        simp only [treeRemoveRegion, hipc, hrun]
        cases env.replyLost <;> rfl
      · obtain ⟨hfind, htype⟩ := found_of_removeRegion hrun
        have hreply : env.replyLost = false :=
          Bool.eq_false_of_not_eq_true fun h => hlost ⟨hipc, h, c.ptr, hfind, htype⟩
        refine .inr (.inr ⟨hlost, c.ptr, s', ?_⟩)
        simp only [treeRemoveRegion, hipc, hreply, hrun]
        rfl

end Rm

namespace Lib
open Rm (Out)
variable {x : Lib} {l : List Cell} {T : Tree} {p : Ptr} {addr size area : Nat} {flags : RmFlags}
  {env : Env}

/-- A failure that comes too early to change the list. -/
structure Early (l : List Cell) (T : Tree) (p : Ptr) (x y : Lib) : Prop where
  inv : y.rm.Inv l T
  live : y.rm.live = x.rm.live
  tree : y.rm.tree = x.rm.tree
  freed : y.freed = x.freed
  lock : y.lock = x.lock

/-- A failure behind the insertion into the list. -/
structure Late (p : Ptr) (x y : Lib) : Prop where
  nodup : y.rm.live.Nodup
  left : p ∈ y.freed ∨ y.rm.Linked p
  lock : y.lock = x.lock

/-- How `l4rm_new_region` ends. -/
inductive NewEnds (l : List Cell) (T : Tree) (p : Ptr) (x : Lib) :
    Except Fault (RmRet × Lib) → Prop → Prop
  | fault (f : Fault) {F : Prop} (hF : ¬F) : NewEnds l T p x (.error f) F
  | done (y : Lib) {F : Prop} (hF : ¬F) : NewEnds l T p x (.ok (.ok, y)) F
  | early {y : Lib} {ret : RmRet} (hret : ret ≠ .ok) {F : Prop} (hF : ¬F) (h : Early l T p x y) :
    NewEnds l T p x (.ok (ret, y)) F
  | late {y : Lib} {ret : RmRet} (hret : ret ≠ .ok) {F : Prop} (hF : F) (h : Late p x y) :
    NewEnds l T p x (.ok (ret, y)) F

theorem newRegion_ends (I : x.rm.Inv l T) (hp : p ∉ l.map Cell.ptr) (hlive : p ∈ x.rm.live)
    (htmp : ∀ t, env.tmp = some t → t ∉ x.rm.live) :
    NewEnds l T p x (x.newRegion p addr size area flags env)
      (x.rm.NewFails p addr size area flags env) := by
  have hplace' : x.rm.place addr size area { flags with treeInsert := false } =
      x.rm.place addr size area flags := rfl
  unfold newRegion Rm.NewFails Rm.newRegion
  rw [hplace']
  cases hplace : x.rm.place addr size area flags with
  | error f =>
    refine .fault f ?_
    rintro ⟨_, _, _, _, h, _⟩
    cases h
  | ok q =>
    cases q with
    | error e =>
      have he := Rm.place_error hplace
      refine .early he ?_ ⟨I, rfl, rfl, rfl, rfl⟩
      rintro ⟨_, _, _, _, h, _⟩
      cases h
      exact he rfl
    | ok q =>
      obtain ⟨rp, mapAddr, size'⟩ := q
      obtain ⟨c, hc, rfl⟩ := Rm.place_mem I hplace
      simp only [ok_bind]
      generalize hr : ({ x.rm.region p with
        start := mapAddr
        last := Word.sub (Word.add mapAddr size') 1
        flags := { (x.rm.region p).flags with
          area := (if flags.setArea then mapAddr / pageSize else area) % 1048576 } } : Region) = r
      have I₁ : (x.rm.setRegion p r).Inv l T := I.setRegion_new hp
      obtain hrun | hrun | ⟨s', hrun, hlink, hnd⟩ :=
        Rm.insertRegion_cases I₁.shows hc hp hlive I₁.nodup htmp
      · rw [hrun]
        refine .fault _ ?_
        rintro ⟨_, _, _, _, h, _⟩
        cases h
      · rw [hrun]
        have hearly : Early l T p x { x with rm := x.rm.setRegion p r } := ⟨I₁, rfl, rfl, rfl, rfl⟩
        refine .early (show RmRet.enomem ≠ .ok by decide) ?_ hearly
        rintro ⟨_, _, _, _, h, _⟩
        cases h
      · rw [hrun]
        simp only [ok_bind, ne_eq, not_true_eq_false, if_false, Bool.false_eq_true]
        by_cases htree : flags.treeInsert = true
        · rw [if_pos htree]
          cases hins : s'.treeInsertRegion p flags env with
          | error f =>
            refine .fault f ?_
            rintro ⟨_, s₁, ret, s₂, h, h', _⟩
            cases h
            rw [hins] at h'
            cases h'
          | ok q =>
            obtain ⟨ret, s₂⟩ := q
            obtain ⟨hlink₂, hlive₂⟩ := Rm.treeInsertRegion_linked hins hlink
            simp only [ok_bind]
            by_cases hret : ret = .ok
            · subst hret
              refine .done _ ?_
              rintro ⟨-, s₁, ret', s₂', h₁, h₂, hne, -⟩
              cases h₁
              rw [hins] at h₂
              cases h₂
              exact hne rfl
            · rw [if_pos hret]
              by_cases hexists : ret = .eexists
              · subst hexists
                refine .fault .corrupted ?_
                rintro ⟨-, s₁, ret', s₂', h₁, h₂, -, hne⟩
                cases h₁
                rw [hins] at h₂
                cases h₂
                exact hne rfl
              · rw [if_neg hexists]
                obtain ⟨s₃, hfree, hnd₃, hleft⟩ := hlink₂.freeRegion (hlive₂ ▸ hnd)
                simp only [freeRegion, hfree]
                refine .late hret ⟨htree, s', ret, s₂, rfl, hins, hret, hexists⟩ ⟨hnd₃, ?_, rfl⟩
                exact hleft.imp (fun h => List.mem_append_left _ h) fun h => h
        · rw [if_neg htree]
          exact .done _ fun h => htree h.1

/-! ## Failed operations -/

/-- The list and the tree denote the same regions, the linked descriptors are allocated, none has been
released twice, and the lock is held as often as before. -/
structure Untouched (l : List Cell) (x x' : Lib) : Prop where
  regions : ∃ l', x'.rm.Shows l' ∧ l'.map Cell.reg = l.map Cell.reg
  tree : ∀ addr, x'.rm.tree.find ⟨addr, addr⟩ = x.rm.tree.find ⟨addr, addr⟩
  freed : x'.freed.Nodup
  lock : x'.lock = x.lock

theorem Untouched.refl (I : x.rm.Inv l T) (hfreed : x.freed = []) : Untouched l x x :=
  ⟨⟨l, I.shows, rfl⟩, fun _ => rfl, by rw [hfreed]; exact .nil, rfl⟩

@[simp] theorem lockRegionListDirect_freed (x : Lib) :
    (x.lockRegionListDirect flags).freed = x.freed := by
  rw [lockRegionListDirect]
  split <;> rfl

@[simp] theorem unlockRegionListDirect_freed (x : Lib) :
    (x.unlockRegionListDirect flags).freed = x.freed := by
  rw [unlockRegionListDirect]
  split <;> rfl

theorem lock_congr (s : Rm) : (({ x with rm := s } : Lib).lockRegionListDirect flags).lock =
    (x.lockRegionListDirect flags).lock := by
  unfold lockRegionListDirect
  split <;> rfl

/-- What is locked and unlocked again is locked as before. -/
theorem unlock_lock {y : Lib} (h : y.lock = (x.lockRegionListDirect flags).lock) :
    (y.unlockRegionListDirect flags).lock = x.lock := by
  unfold lockRegionListDirect at h
  unfold unlockRegionListDirect
  cases hd : flags.modifyDirect <;> simp only [hd, if_true, Bool.false_eq_true, if_false] at h ⊢
  · exact Nat.sub_eq_of_eq_add h
  · exact h

/-- What is done with the descriptor and the lock after a failure. -/
def giveUp (x : Lib) (freeLocked : Bool) (p : Ptr) (flags : RmFlags) : Lib :=
  if freeLocked then (x.regionDescFree p).unlockRegionListDirect flags
  else (x.unlockRegionListDirect flags).regionDescFree p

theorem giveUp_spec {y : Lib} (freeLocked : Bool) (h : y.lock = (x.lockRegionListDirect flags).lock) :
    (y.giveUp freeLocked p flags).rm = y.rm.descFree p ∧
      (y.giveUp freeLocked p flags).freed = p :: y.freed ∧
      (y.giveUp freeLocked p flags).lock = x.lock := by
  cases freeLocked with
  | true =>
    refine ⟨unlockRegionListDirect_rm _, unlockRegionListDirect_freed _, ?_⟩
    exact unlock_lock (y := y.regionDescFree p) h
  | false =>
    refine ⟨?_, ?_, unlock_lock h⟩
    · exact congrArg (fun s : Rm => s.descFree p) (unlockRegionListDirect_rm y)
    · exact congrArg (p :: ·) (unlockRegionListDirect_freed y)

/-- The failed creations that leave a trace are those that fail at the tree. -/
theorem create_untouched_iff {freeLocked : Bool} {type : RegionType} {data : RegionData}
    (I : x.rm.Inv l T) (hfreed : x.freed = []) (henv : env.Fresh x.rm) :
    (∀ ret r x', x.create freeLocked type data addr size area flags env = .ok (ret, r, x') →
      ret ≠ .ok → Untouched l x x') ↔ ¬x.rm.InsertFails type data addr size area flags env := by
  cases hdesc : env.desc with
  | none =>
    have halloc : x.rm.descAlloc env.desc = none := by
      rw [hdesc]
      rfl
    refine iff_of_true (fun ret r x' hrun _ => ?_) ?_
    · rw [create, halloc] at hrun
      cases hrun
      exact .refl I hfreed
    · rintro ⟨_, _, _, _, _, h, _⟩
      rw [Rm.create, halloc] at h
      cases h
  | some p =>
    have hp := henv.desc p hdesc
    have hpl : p ∉ l.map Cell.ptr := fun h => by
      obtain ⟨c, hc, rfl⟩ := List.mem_map.mp h
      exact hp (I.shows.live c hc)
    obtain ⟨s, halloc, hlive, htree, hinv⟩ : ∃ s, x.rm.descAlloc env.desc = some (p, s) ∧
        s.live = p :: x.rm.live ∧ s.tree = x.rm.tree ∧ ∀ r, (s.setRegion p r).Inv l T :=
      ⟨_, congrArg x.rm.descAlloc hdesc, rfl, rfl, fun r => I.descAlloc hp⟩
    generalize hr : ({ s.region p with flags := { type := type }, data := data } : Region) = r at *
    rw [Rm.insertFails_iff halloc, hr]
    generalize hx₁ : ({ x with rm := s.setRegion p r } : Lib).lockRegionListDirect flags = x₁
    have hrm : x₁.rm = s.setRegion p r := by rw [← hx₁, lockRegionListDirect_rm]
    have hends := @newRegion_ends x₁ l T p addr size area flags env (hrm ▸ hinv r) hpl
      (by rw [hrm]; exact hlive ▸ List.mem_cons_self) (fun t ht h => ?_)
    · have hcreate : x.create freeLocked type data addr size area flags env =
          (x₁.newRegion p addr size area flags env).map fun q => (q.1, p,
            if q.1 = .ok then q.2.unlockRegionListDirect flags else q.2.giveUp freeLocked p flags) := by
        rw [create, halloc]
        dsimp only
        rw [hr, hx₁]
        cases x₁.newRegion p addr size area flags env with
        | error f => rfl
        | ok q =>
          obtain ⟨ret, y⟩ := q
          simp only [ok_bind, Except.map, giveUp]
          by_cases hret : ret = .ok
          · rw [if_neg (not_not.mpr hret), if_pos hret, hret]
            rfl
          · rw [if_pos hret, if_neg hret]
            cases freeLocked <;> rfl
      rw [hcreate, ← hrm]
      generalize x₁.newRegion p addr size area flags env = res at hends
      generalize x₁.rm.NewFails p addr size area flags env = F at hends
      cases hends with
      | fault f hF =>
        refine iff_of_true (fun _ _ _ h => ?_) hF
        cases h
      | done y hF =>
        refine iff_of_true (fun ret r x' h hret => ?_) hF
        cases h
        exact absurd rfl hret
      | @early y ret hret F hF h =>
        refine iff_of_true (fun ret r x' hrun _ => ?_) hF
        cases hrun
        obtain ⟨hrm', hfreed', hlock'⟩ := giveUp_spec (x := x) (p := p) freeLocked
          (h.lock.trans (by rw [← hx₁, lock_congr]))
        simp only [if_neg hret]
        refine ⟨⟨l, ?_, rfl⟩, fun a => ?_, ?_, hlock'⟩
        · rw [hrm']
          exact (h.inv.descFree_new hpl).shows
        · rw [hrm']
          show y.rm.tree.find _ = _
          rw [h.tree, hrm]
          exact congrArg (fun t : Avl => t.find ⟨a, a⟩) htree
        · rw [hfreed', h.freed, ← hx₁, lockRegionListDirect_freed]
          show (p :: x.freed).Nodup
          rw [hfreed]
          exact List.nodup_singleton p
      | @late y ret hret F hF h =>
        refine iff_of_false (fun hall => ?_) (not_not.mpr hF)
        have hun := hall _ _ _ rfl hret
        obtain ⟨hrm', hfreed', -⟩ := giveUp_spec (x := x) (p := p) freeLocked
          (h.lock.trans (by rw [← hx₁, lock_congr]))
        simp only [if_neg hret] at hun
        -- the descriptor has been released before, or it is still linked
        rcases h.left with hin | hlink
        · have hnd := hun.freed
          rw [hfreed'] at hnd
          exact (List.nodup_cons.mp hnd).1 hin
        · obtain ⟨l', S', -⟩ := hun.regions
          rw [hrm'] at S'
          exact hlink.descFree h.nodup ⟨l', S'⟩
    · rw [hrm] at h
      have h : t ∈ p :: x.rm.live := hlive ▸ h
      rcases List.mem_cons.mp h with rfl | h
      · exact (henv.tmp t ht).2 hdesc
      · exact (henv.tmp t ht).1 h

/-- The operations that create a region return what the creation does. -/
theorem created_iff {r : Except Fault (RmRet × Ptr × Lib)} {a : Nat} {g : Ptr → Lib → Out}
    (hg : ∀ p y, (g p y).ret = .ok) {P : Lib → Prop} :
    (∀ out x', (do
        let (ret, p, y) ← r
        if ret ≠ .ok then return (({ ret := ret, addr := a } : Out), y)
        return (g p y, y)) = (.ok (out, x') : Except Fault _) → out.ret ≠ .ok → P x') ↔
      ∀ ret p x', r = .ok (ret, p, x') → ret ≠ .ok → P x' := by
  cases r with
  | error f => exact iff_of_true (fun _ _ h => nomatch h) fun _ _ _ h => nomatch h
  | ok q =>
    obtain ⟨ret, p, y⟩ := q
    simp only [ok_bind]
    by_cases hret : ret = .ok
    · subst hret
      refine iff_of_true (fun out x' h hout => ?_) fun _ _ _ h hne => ?_
      · cases h
        exact absurd (hg p y) hout
      · cases h
        exact absurd rfl hne
    · rw [if_pos hret]
      constructor
      · intro h ret' p' x' heq hne
        cases heq
        exact h _ _ rfl hne
      · intro h out x' heq hne
        cases heq
        exact h _ _ _ rfl hne

/-- The end of `l4rm_detach` and of `l4rm_area_clear_region`. -/
theorem removal_untouched_iff {type : RegionType} (I : x.rm.Inv l T) (hfreed : x.freed = []) :
    (∀ out x', (do
        match ← x.lockRegionList.treeRemoveRegion addr type env with
        | (.error e, y) => return (({ ret := e } : Out), y.unlockRegionList)
        | (.ok r, y) => return ({ ret := .ok }, (← y.freeRegion r).unlockRegionList)) =
          (.ok (out, x') : Except Fault _) → out.ret ≠ .ok → Untouched l x x') ↔
      ¬x.rm.RemoveLost addr type env := by
  have hrun {r : Except RmRet Ptr} {s' : Rm} (h : x.rm.treeRemoveRegion addr type env = .ok (r, s')) :
      x.lockRegionList.treeRemoveRegion addr type env =
        .ok (r, { x.lockRegionList with rm := s' }) := by
    simp only [treeRemoveRegion, lockRegionList, h]
    rfl
  obtain ⟨hnot, e, h⟩ | ⟨hlost, s', h, hgone⟩ | ⟨hnot, p, s', h⟩ :=
    Rm.treeRemoveRegion_ends addr type env I
  · refine iff_of_true (fun out x' hout _ => ?_) hnot
    rw [hrun h] at hout
    cases hout
    refine ⟨⟨l, I.shows, rfl⟩, fun _ => rfl, ?_, rfl⟩
    show x.freed.Nodup
    rw [hfreed]
    exact .nil
  · refine iff_of_false (fun hall => ?_) (not_not.mpr hlost)
    rw [hrun h] at hall
    exact hgone ((hall _ _ rfl (by simp)).tree addr)
  · refine iff_of_true (fun out x' hout hret => ?_) hnot
    rw [hrun h] at hout
    simp only [ok_bind] at hout
    cases hfree : ({ x.lockRegionList with rm := s' } : Lib).freeRegion p with
    | error f =>
      rw [hfree] at hout
      cases hout
    | ok y =>
      rw [hfree] at hout
      cases hout
      exact absurd rfl hret

end Lib

/-- The condition under which an operation that fails leaves no trace. A creation does not fail at the
tree, the reply to a removal is not lost, and the address to be released lies in an area. -/
def RmOp.Traceless (s : Rm) (l : List Cell) (env : Env) : RmOp → Prop
  | .attach ds area addr size dsOffs rights flags => ∀ d ∈ ds,
    ¬s.InsertFails .dataspace (.ds d (Word.roundDown dsOffs pageSize) rights) addr
      (attachSize size dsOffs) area { flags with treeInsert := true } env
  | .areaSetup addr size area type flags pager => ∀ q ∈ s.setupType type pager,
    ¬s.InsertFails q.1 q.2 addr size area { flags with treeInsert := true } env
  | .reserve addr size flags =>
    ¬s.InsertFails .free .none addr size defaultArea { flags with setArea := true } env
  | .detach addr => ¬s.RemoveLost addr .dataspace env
  | .areaClearRegion addr => ∀ type, type ≠ .dataspace → ¬s.RemoveLost addr type env
  | .areaRelease _ => True
  | .areaReleaseAddr addr => ∃ c ∈ l, c.start ≤ addr ∧ addr ≤ c.last ∧ c.area ≠ defaultArea

namespace Lib
open Rm (Out)
variable {x : Lib} {l : List Cell} {T : Tree} {env : Env}

/-- The end of the operations that release an area. -/
theorem reset_returns {r : Except Fault Rm} {g : Rm → Lib} {out : Out} {x' : Lib}
    (h : (do return (({ ret := .ok } : Out), g (← r))) = (.ok (out, x') : Except Fault _)) :
    out.ret = .ok := by
  cases r with
  | error f => cases h
  | ok s =>
    cases h
    rfl

theorem areaClearRegion_untouched_iff (I : x.rm.Inv l T) (hfreed : x.freed = []) (addr : Nat) :
    (∀ out x', x.step env (.areaClearRegion addr) = .ok (out, x') → out.ret ≠ .ok → Untouched l x x') ↔
      (RmOp.areaClearRegion addr).Traceless x.rm l env := by
  simp only [step, areaClearRegion, RmOp.Traceless]
  have hused : x.lockRegionList.rm.findUsedRegion addr = x.rm.tree.find ⟨addr, addr⟩ := rfl
  rw [hused]
  cases hfind : x.rm.tree.find ⟨addr, addr⟩ with
  | error f =>
    refine iff_of_true (fun _ _ h => ?_) ?_
    · cases h
    · rintro type - ⟨_, _, p, h, _⟩
      rw [hfind] at h
      cases h
  | ok q =>
    cases q with
    | none =>
      refine iff_of_true (fun out x' h _ => ?_) ?_
      · cases h
        exact .refl I hfreed
      · rintro type - ⟨_, _, p, h, _⟩
        rw [hfind] at h
        cases h
    | some rp =>
      simp only [ok_bind]
      have hrm : x.lockRegionList.rm = x.rm := rfl
      rw [hrm]
      by_cases htype : (x.rm.region rp).flags.type = .dataspace
      · rw [if_pos htype]
        refine iff_of_true (fun out x' h _ => ?_) ?_
        · cases h
          exact .refl I hfreed
        · rintro type hne ⟨_, _, p, h, hp⟩
          rw [hfind] at h
          cases h
          exact hne (hp.symm.trans htype)
      · rw [if_neg htype]
        refine (removal_untouched_iff I hfreed).trans ?_
        constructor
        · rintro hnot type - ⟨hipc, hreply, p, h, rfl⟩
          rw [hfind] at h
          cases h
          exact hnot ⟨hipc, hreply, rp, hfind, rfl⟩
        · exact fun h => h _ htype

theorem areaReleaseAddr_untouched_iff (I : x.rm.Inv l T) (addr : Nat) :
    (∀ out x', x.step env (.areaReleaseAddr addr) = .ok (out, x') → out.ret ≠ .ok → Untouched l x x') ↔
      (RmOp.areaReleaseAddr addr).Traceless x.rm l env := by
  simp only [step, areaReleaseAddr, RmOp.Traceless]
  have hrm : x.lockRegionList.rm = x.rm := rfl
  -- an error is returned with the lock taken
  have hlocked : ¬Untouched l x x.lockRegionList := fun h => by
    have := h.lock
    simp [lockRegionList] at this
  rw [hrm, Rm.findRegion]
  by_cases hout : addr < x.rm.vmStart ∨ x.rm.vmEnd < addr
  · rw [if_pos hout]
    refine iff_of_false (fun hall => hlocked (hall _ _ rfl (by simp))) ?_
    rintro ⟨c, hc, hs, hl, -⟩
    have := I.layout.tiles.bounds hc
    omega
  · rw [if_neg hout]
    push Not at hout
    obtain ⟨c, hc, hwalk, hs, hl⟩ := I.walk hout.1 hout.2
    have harea : (x.rm.region c.ptr).flags.area = c.area := by rw [I.shows.region c hc, Cell.area]
    rw [hwalk]
    simp only [ok_bind, pure_bind, harea]
    by_cases h0 : c.area = defaultArea
    · rw [if_pos h0]
      refine iff_of_false (fun hall => hlocked (hall _ _ rfl (by simp))) ?_
      rintro ⟨d, hd, hs', hl', hne⟩
      rw [I.layout.tiles.unique hd hc hs' hl' hs hl] at hne
      exact hne h0
    · rw [if_neg h0]
      refine iff_of_true (fun out x' h hret => ?_) ⟨c, hc, hs, hl, h0⟩
      exact absurd (reset_returns h) hret

/-- An operation that fails leaves no trace, in exactly these cases. -/
theorem failed_untouched (I : x.rm.Inv l T) (hfreed : x.freed = []) (henv : env.Fresh x.rm)
    (op : RmOp) : (∀ out x', x.step env op = .ok (out, x') → out.ret ≠ .ok → Untouched l x x') ↔
      op.Traceless x.rm l env := by
  cases op with
  | attach ds area addr size dsOffs rights flags =>
    cases ds with
    | none =>
      refine iff_of_true (fun out x' h _ => ?_) fun d hd => by cases hd
      cases h
      exact .refl I hfreed
    | some d =>
      have hend := created_iff (a := addr) (P := Untouched l x)
        (r := x.create true .dataspace (.ds d (Word.roundDown dsOffs pageSize) rights) addr
          (attachSize size dsOffs) area { flags with treeInsert := true } env)
        (g := fun p y => ⟨.ok, Word.add (y.rm.region p).start
          (Word.sub dsOffs (Word.roundDown dsOffs pageSize)), 0⟩) fun _ _ => rfl
      refine (hend.trans (create_untouched_iff I hfreed henv)).trans ?_
      simp only [RmOp.Traceless, Option.mem_def, Option.some.injEq, forall_eq']
  | areaSetup addr size area type flags pager =>
    simp only [step, doAreaSetup, RmOp.Traceless]
    cases x.rm.setupType type pager with
    | none =>
      refine iff_of_true (fun out x' h _ => ?_) (by simp)
      cases h
      exact .refl I hfreed
    | some q =>
      have hend := created_iff (a := addr) (P := Untouched l x)
        (r := x.create false q.1 q.2 addr size area { flags with treeInsert := true } env)
        (g := fun p y => { ret := .ok, addr := (y.rm.region p).start }) fun _ _ => rfl
      refine (hend.trans (create_untouched_iff I hfreed henv)).trans ?_
      simp only [Option.mem_def, Option.some.injEq, forall_eq']
  | reserve addr size flags =>
    have hend := created_iff (a := addr) (P := Untouched l x)
      (r := x.create false .free .none addr size defaultArea { flags with setArea := true } env)
      (g := fun p y => ⟨.ok, (y.rm.region p).start, (y.rm.region p).flags.area⟩) fun _ _ => rfl
    exact hend.trans (create_untouched_iff I hfreed henv)
  | detach addr => exact removal_untouched_iff I hfreed
  | areaClearRegion addr => exact areaClearRegion_untouched_iff I hfreed addr
  | areaRelease area => exact iff_of_true (fun _ _ h hret => absurd (reset_returns h) hret) trivial
  | areaReleaseAddr addr => exact areaReleaseAddr_untouched_iff I addr

/-- The address space at the start, with nothing locked or released. -/
def small : Lib := ⟨smallVm, 0, []⟩

theorem observed {α : Type} {r : Except Fault (Out × Lib)} {f : Out × Lib → α} {a : α}
    (h : r.toOption.map f = some a) : ∃ out x', r = .ok (out, x') ∧ f (out, x') = a := by
  cases r with
  | error e => cases h
  | ok q => exact ⟨q.1, q.2, rfl, Option.some.inj h⟩

/-- A region is to be detached where there is none. -/
theorem failed_untouched_detach : ∃ out x', small.step smallEnv (.detach 8192) = .ok (out, x') ∧
    out.ret = .enotfound ∧ Untouched [Rm.smallCell] small x' := by
  obtain ⟨out, x', hrun, hret⟩ : ∃ out x', small.step smallEnv (.detach 8192) = .ok (out, x') ∧
      out.ret = .enotfound :=
    observed (f := fun q => q.1.ret) (by decide +kernel)
  have hinv : small.rm.Inv [Rm.smallCell] .nil := init_inv (by decide) (by decide) (by decide)
  have hall := (failed_untouched hinv rfl smallVm_fresh (.detach 8192)).mpr <| by
    rintro ⟨-, h, -⟩
    cases h
  exact ⟨out, x', hrun, hret, hall out x' hrun (by rw [hret]; nofun)⟩

/-- The lock is kept where the address of no area is to be released. A descriptor is released twice if
there is no node for the tree. -/
theorem failed_touched :
    (∃ out x', small.step smallEnv (.areaReleaseAddr 8192) = .ok (out, x') ∧ out.ret = .einval ∧
      ¬Untouched [Rm.smallCell] small x') ∧
    ∃ out x', small.step { smallEnv with node := none } (.attach (some 7) 0 8192 4096 0 0 {}) =
      .ok (out, x') ∧ out.ret = .enomem ∧ ¬Untouched [Rm.smallCell] small x' := by
  constructor
  · obtain ⟨out, x', hrun, hobs⟩ : ∃ out x', small.step smallEnv (.areaReleaseAddr 8192) =
        .ok (out, x') ∧ (out.ret, x'.lock) = (.einval, 1) :=
      observed (f := fun q => (q.1.ret, q.2.lock)) (by decide +kernel)
    obtain ⟨hret, hlock⟩ := Prod.mk.inj hobs
    refine ⟨out, x', hrun, hret, fun h => ?_⟩
    have := h.lock
    rw [hlock] at this
    cases this
  · obtain ⟨out, x', hrun, hobs⟩ : ∃ out x',
        small.step { smallEnv with node := none } (.attach (some 7) 0 8192 4096 0 0 {}) =
          .ok (out, x') ∧ (out.ret, x'.freed) = (.enomem, [2, 2, 1]) :=
      observed (f := fun q => (q.1.ret, q.2.freed)) (by decide +kernel)
    obtain ⟨hret, hfreed⟩ := Prod.mk.inj hobs
    refine ⟨out, x', hrun, hret, fun h => ?_⟩
    have := h.freed
    rw [hfreed] at this
    exact absurd this (by decide)

end Lib

end L4env.L4rm
