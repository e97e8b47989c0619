import L4env.L4rm.Region
import L4env.Util.Meets
import L4env.Util.Tiling
import Mathlib.Data.List.Chain

/-!
# L4RM: the region list as a list

`Rm.Shows s l` says that the descriptors of `s` form a doubly linked list with the contents `l`. The
functions of `region.c` that write links are shown to be edits of `l`: `__insert_region` replaces a
free region by its parts, `__modify_region` joins a free region with its neighbours.
-/

namespace L4env.L4rm

/-- A descriptor of the list and its contents. -/
structure Cell where
  ptr : Ptr
  reg : Region
  deriving DecidableEq

/-- The region list of `s` consists of the cells `l`. -/
structure Rm.Shows (s : Rm) (l : List Cell) : Prop where
  dlist : IsDList s.next s.prev s.head (l.map Cell.ptr)
  region : ∀ c ∈ l, s.region c.ptr = c.reg
  nodup : (l.map Cell.ptr).Nodup
  live : ∀ c ∈ l, c.ptr ∈ s.live

/-- Everything but the region list is as before. -/
structure Rm.Frame (s s' : Rm) : Prop where
  tree : s'.tree = s.tree
  vmStart : s'.vmStart = s.vmStart
  vmEnd : s'.vmEnd = s.vmEnd

namespace Rm
variable {s s' s'' : Rm} {l l₁ l₂ m k : List Cell} {c : Cell}

theorem Frame.refl : Frame s s := ⟨rfl, rfl, rfl⟩

theorem Frame.trans (h : Frame s s') (h' : Frame s' s'') : Frame s s'' :=
  ⟨h'.tree.trans h.tree, h'.vmStart.trans h.vmStart, h'.vmEnd.trans h.vmEnd⟩

/-- A segment of the list is replaced; the links are those of the new list. -/
theorem Shows.splice (S : s.Shows (l₁ ++ (m ++ l₂)))
    (hhead : s'.head = (l₁.map Cell.ptr ++ (k.map Cell.ptr ++ l₂.map Cell.ptr)).head?)
    (hlinks : Links s'.next s'.prev none
      (l₁.map Cell.ptr ++ (k.map Cell.ptr ++ l₂.map Cell.ptr)) none)
    (hregion : ∀ x ∉ k.map Cell.ptr, s'.region x = s.region x)
    (hk : ∀ c ∈ k, s'.region c.ptr = c.reg ∧ c.ptr ∈ s'.live)
    (hlive : ∀ x ∈ s.live, x ∉ m.map Cell.ptr → x ∈ s'.live) (hnd : (k.map Cell.ptr).Nodup)
    (hnew : ∀ x ∈ k.map Cell.ptr, x ∉ l₁.map Cell.ptr ∧ x ∉ l₂.map Cell.ptr) :
    s'.Shows (l₁ ++ (k ++ l₂)) := by
  have hold := S.nodup
  simp only [List.map_append, List.nodup_append, List.mem_append] at hold
  obtain ⟨hnd₁, ⟨-, hnd₂, hdisj₂⟩, hdisj₁⟩ := hold
  have hout₁ : ∀ x ∈ l₁.map Cell.ptr, x ∉ k.map Cell.ptr := fun x hx hx' => (hnew x hx').1 hx
  have hout₂ : ∀ x ∈ l₂.map Cell.ptr, x ∉ k.map Cell.ptr := fun x hx hx' => (hnew x hx').2 hx
  have hin₁ : ∀ c ∈ l₁, c.ptr ∈ l₁.map Cell.ptr := fun c hc => List.mem_map_of_mem hc
  have hin₂ : ∀ c ∈ l₂, c.ptr ∈ l₂.map Cell.ptr := fun c hc => List.mem_map_of_mem hc
  refine ⟨by simpa only [List.map_append] using ⟨hhead, hlinks⟩, ?_, ?_, ?_⟩
  · intro c hc
    obtain hc | hc | hc := by simpa using hc
    · rw [hregion _ (hout₁ _ (hin₁ c hc)), S.region c (by simp [hc])]
    · exact (hk c hc).1
    · rw [hregion _ (hout₂ _ (hin₂ c hc)), S.region c (by simp [hc])]
  · simp only [List.map_append, List.nodup_append, List.mem_append]
    refine ⟨hnd₁, ⟨hnd, hnd₂, ?_⟩, ?_⟩
    · intro x hx y hy e
      exact (hnew x hx).2 (e ▸ hy)
    · intro x hx y hy e
      subst e
      obtain hy | hy := hy
      · exact hout₁ x hx hy
      · exact hdisj₁ x hx x (.inr hy) rfl
  · intro c hc
    obtain hc | hc | hc := by simpa using hc
    · exact hlive _ (S.live c (by simp [hc])) fun h => hdisj₁ _ (hin₁ c hc) _ (.inl h) rfl
    · exact (hk c hc).2
    · exact hlive _ (S.live c (by simp [hc])) fun h => hdisj₂ _ h _ (hin₂ c hc) rfl

/-- The links and the descriptors around a cell. -/
theorem Shows.around (S : s.Shows (l₁ ++ c :: l₂)) :
    Links s.next s.prev none (l₁.map Cell.ptr ++ c.ptr :: l₂.map Cell.ptr) none ∧
      (l₁.map Cell.ptr ++ c.ptr :: l₂.map Cell.ptr).Nodup := by
  have hl := S.dlist.2
  have hnd := S.nodup
  simp only [List.map_append, List.map_cons] at hl hnd
  exact ⟨hl, hnd⟩

/-- The links of a cell. -/
theorem Shows.middle (S : s.Shows (l₁ ++ c :: l₂)) :
    s.prev c.ptr = (l₁.map Cell.ptr).getLast? ∧ s.next c.ptr = (l₂.map Cell.ptr).head? := by
  simpa using S.around.1.middle

theorem Shows.head_eq (S : s.Shows (l₁ ++ c :: l₂)) : s.head = some c.ptr ↔ l₁ = [] := by
  rw [S.dlist.1]
  have hnd := S.nodup
  cases l₁ with
  | nil => simp
  | cons d l₁ =>
    simp only [List.map_cons, List.map_append, List.cons_append, List.nodup_cons] at hnd
    simp only [List.map_cons, List.cons_append, List.head?_cons, Option.some.injEq, reduceCtorEq,
      iff_false]
    intro e
    exact hnd.1 (by simp [e])

/-- The descriptor of a cell is in neither half of the list. -/
theorem Shows.ptr_notMem (S : s.Shows (l₁ ++ c :: l₂)) :
    c.ptr ∉ l₁.map Cell.ptr ∧ c.ptr ∉ l₂.map Cell.ptr := by
  have hnd := S.around.2
  simp only [List.nodup_append, List.nodup_cons] at hnd
  exact ⟨fun h => hnd.2.2 _ h _ List.mem_cons_self rfl, hnd.2.1.1⟩

theorem Shows.last_ne (S : s.Shows (l₁ ++ c :: l₂)) : (l₁.map Cell.ptr).getLast? ≠ some c.ptr :=
  fun e => S.ptr_notMem.1 (List.mem_of_getLast? e)

/-- The write to the predecessor of a cell other than the head. -/
theorem setNextOf_getLast {p : Ptr} (hl : l₁ ≠ []) :
    s.setNextOf (l₁.map Cell.ptr).getLast? p =
      .ok { s with next := writeAt s.next (l₁.map Cell.ptr).getLast? (some p) } := by
  rcases List.eq_nil_or_concat l₁ with rfl | ⟨l₀, a, rfl⟩
  · exact absurd rfl hl
  · simp [setNextOf, setNext, writeAt]
    rfl

theorem assert_ok {b : Bool} (h : b = true) : Avl.assert b = .ok () := by rw [Avl.assert, h]; rfl

section
variable {p : Ptr} {tmp : Option Ptr}

/-- `__insert_region` where the new region replaces the free one. -/
theorem insertRegion_replace (S : s.Shows (l₁ ++ c :: l₂)) (hcp : c.ptr ≠ p)
    (hflags : (s.region p).flags ≠ c.reg.flags) (h1 : c.reg.start = (s.region p).start)
    (h2 : c.reg.last = (s.region p).last) :
    s.insertRegion p c.ptr tmp = .ok (.ok, { s with
      next := Function.update (writeAt s.next (l₁.map Cell.ptr).getLast? (some p)) p
        (l₂.map Cell.ptr).head?
      prev := writeAt (Function.update s.prev p (l₁.map Cell.ptr).getLast?)
        (l₂.map Cell.ptr).head? (some p)
      head := if l₁ = [] then some p else s.head
      live := s.live.erase c.ptr }) := by
  obtain ⟨hprev, hnext⟩ := S.middle
  have hok := assert_ok (decide_eq_true hflags)
  simp only [insertRegion, S.region c (by simp), hok, ok_bind, if_pos h1, if_pos h2, setPrev,
    setPrevIf, setNext, descFree, hnext, hprev, Function.update_of_ne hcp]
  by_cases hl : l₁ = []
  · subst hl
    rw [if_pos (S.head_eq.mpr rfl)]
    rfl
  · rw [if_neg (fun h => hl (S.head_eq.mp h)), Function.update_self, setNextOf_getLast hl]
    simp only [ok_bind, writeAt_of_ne S.last_ne, hnext, if_neg hl]
    rfl

/-- `__insert_region` where the new region is the begin of the free one. -/
theorem insertRegion_front (S : s.Shows (l₁ ++ c :: l₂)) (hcp : c.ptr ≠ p)
    (hflags : (s.region p).flags ≠ c.reg.flags) (h1 : c.reg.start = (s.region p).start)
    (h2 : c.reg.last ≠ (s.region p).last) :
    s.insertRegion p c.ptr tmp = .ok (.ok, { s with
      region := Function.update s.region c.ptr
        { c.reg with start := Word.add (s.region p).last 1 }
      next := Function.update (writeAt s.next (l₁.map Cell.ptr).getLast? (some p)) p (some c.ptr)
      prev := Function.update (Function.update s.prev p (l₁.map Cell.ptr).getLast?) c.ptr (some p)
      head := if l₁ = [] then some p else s.head }) := by
  obtain ⟨hprev, hnext⟩ := S.middle
  have hok := assert_ok (decide_eq_true hflags)
  simp only [insertRegion, S.region c (by simp), hok, ok_bind, if_pos h1, if_neg h2, setPrev,
    setNext, setRegion, hprev, Function.update_of_ne hcp]
  by_cases hl : l₁ = []
  · subst hl
    rw [if_pos (S.head_eq.mpr rfl)]
    rfl
  · rw [if_neg (fun h => hl (S.head_eq.mp h)), setNextOf_getLast hl, if_neg hl]
    rfl

/-- `__insert_region` where the new region is the end of the free one. -/
theorem insertRegion_back (S : s.Shows (l₁ ++ c :: l₂))
    (hflags : (s.region p).flags ≠ c.reg.flags) (h1 : c.reg.start ≠ (s.region p).start)
    (h2 : c.reg.last = (s.region p).last) :
    s.insertRegion p c.ptr tmp = .ok (.ok, { s with
      region := Function.update s.region c.ptr
        { c.reg with last := Word.sub (s.region p).start 1 }
      next := Function.update (Function.update s.next p (l₂.map Cell.ptr).head?) c.ptr (some p)
      prev := writeAt (Function.update s.prev p (some c.ptr)) (l₂.map Cell.ptr).head? (some p) }) := by
  obtain ⟨hprev, hnext⟩ := S.middle
  have hok := assert_ok (decide_eq_true hflags)
  simp only [insertRegion, S.region c (by simp), hok, ok_bind, if_neg h1, if_pos h2, setPrev,
    setPrevIf, setNext, setRegion, hnext, Function.update_self]
  rfl

/-- `__insert_region` where the new region splits the free one. -/
theorem insertRegion_split {t : Ptr} (S : s.Shows (l₁ ++ c :: l₂)) (htc : c.ptr ≠ t)
    (hflags : (s.region p).flags ≠ c.reg.flags)
    (h1 : c.reg.start ≠ (s.region p).start) (h2 : c.reg.last ≠ (s.region p).last) :
    s.insertRegion p c.ptr (some t) = .ok (.ok, { s with
      region := Function.update (Function.update s.region t
          { s.region t with
            start := Word.add (s.region p).last 1
            last := c.reg.last
            flags := c.reg.flags })
        c.ptr { c.reg with last := Word.sub (s.region p).start 1 }
      next := Function.update (Function.update (Function.update s.next t (l₂.map Cell.ptr).head?)
        c.ptr (some p)) p (some t)
      prev := Function.update (writeAt (Function.update s.prev t (some p))
        (l₂.map Cell.ptr).head? (some t)) p (some c.ptr)
      live := t :: s.live }) := by
  obtain ⟨hprev, hnext⟩ := S.middle
  have hok := assert_ok (decide_eq_true hflags)
  simp only [insertRegion, S.region c (by simp), hok, ok_bind, if_neg h1, if_neg h2, setPrev,
    setPrevIf, setNext, setRegion, descAlloc, hnext, Function.update_self, Function.update_idem,
    Function.update_of_ne htc]
  rfl

theorem insertRegion_nomem (S : s.Shows (l₁ ++ c :: l₂))
    (hflags : (s.region p).flags ≠ c.reg.flags) (h1 : c.reg.start ≠ (s.region p).start)
    (h2 : c.reg.last ≠ (s.region p).last) : s.insertRegion p c.ptr none = .ok (.enomem, s) := by
  have hok := assert_ok (decide_eq_true hflags)
  simp only [insertRegion, S.region c (by simp), hok, ok_bind, if_neg h1, if_neg h2, descAlloc]
  rfl

/-- The parts of a free region `c` in which the new region `r` with descriptor `p` is made. -/
inductive Cut (c : Cell) (p : Ptr) (r : Region) : List Cell → Prop
  | replace (h1 : c.reg.start = r.start) (h2 : c.reg.last = r.last) : Cut c p r [⟨p, r⟩]
  | front (h1 : c.reg.start = r.start) (h2 : r.last < c.reg.last) :
    Cut c p r [⟨p, r⟩, ⟨c.ptr, { c.reg with start := r.last + 1 }⟩]
  | back (h1 : c.reg.start < r.start) (h2 : c.reg.last = r.last) :
    Cut c p r [⟨c.ptr, { c.reg with last := r.start - 1 }⟩, ⟨p, r⟩]
  | split {t : Ptr} {d : RegionData} (h1 : c.reg.start < r.start) (h2 : r.last < c.reg.last) :
    Cut c p r [⟨c.ptr, { c.reg with last := r.start - 1 }⟩, ⟨p, r⟩,
      ⟨t, ⟨r.last + 1, c.reg.last, c.reg.flags, d⟩⟩]

/-- The new descriptor `p` is in neither half of the list. -/
theorem Shows.new_notMem (hp : p ∉ l₁.map Cell.ptr ++ c.ptr :: l₂.map Cell.ptr) :
    p ≠ c.ptr ∧ p ∉ l₁.map Cell.ptr ∧ p ∉ l₂.map Cell.ptr := by
  simp only [List.mem_append, List.mem_cons, not_or] at hp
  exact ⟨hp.2.1, hp.1, hp.2.2⟩

theorem shows_replace (S : s.Shows (l₁ ++ c :: l₂))
    (hp : p ∉ l₁.map Cell.ptr ++ c.ptr :: l₂.map Cell.ptr) (hlive : p ∈ s.live) : Shows { s with
      next := Function.update (writeAt s.next (l₁.map Cell.ptr).getLast? (some p)) p
        (l₂.map Cell.ptr).head?
      prev := writeAt (Function.update s.prev p (l₁.map Cell.ptr).getLast?)
        (l₂.map Cell.ptr).head? (some p)
      head := if l₁ = [] then some p else s.head
      live := s.live.erase c.ptr } (l₁ ++ ([⟨p, s.region p⟩] ++ l₂)) := by
  obtain ⟨hpc, hp1, hp2⟩ := Shows.new_notMem hp
  refine S.splice (m := [c]) ?_ (S.around.1.exchange_write S.around.2 hp) (fun x _ => rfl) ?_ ?_
    (by simp) ?_
  · cases l₁ <;> simp [S.dlist.1]
  · simpa using (List.mem_erase_of_ne hpc).mpr hlive
  · exact fun x hx hxc => (List.mem_erase_of_ne (by simpa using hxc)).mpr hx
  · intro x hx
    cases List.mem_singleton.mp hx
    exact ⟨hp1, hp2⟩

theorem shows_front {r : Region} (S : s.Shows (l₁ ++ c :: l₂))
    (hp : p ∉ l₁.map Cell.ptr ++ c.ptr :: l₂.map Cell.ptr) (hlive : p ∈ s.live) : Shows { s with
      region := Function.update s.region c.ptr r
      next := Function.update (writeAt s.next (l₁.map Cell.ptr).getLast? (some p)) p (some c.ptr)
      prev := Function.update (Function.update s.prev p (l₁.map Cell.ptr).getLast?) c.ptr (some p)
      head := if l₁ = [] then some p else s.head } (l₁ ++ ([⟨p, s.region p⟩, ⟨c.ptr, r⟩] ++ l₂)) := by
  obtain ⟨hpc, hp1, hp2⟩ := Shows.new_notMem hp
  have hclive := S.live c (by simp)
  refine S.splice (m := [c]) ?_ (S.around.1.insert_before_write S.around.2 hp) ?_ ?_
    (fun x hx _ => hx) (by simpa using hpc) ?_
  · cases l₁ <;> simp [S.dlist.1]
  · intro x hx
    have hx : x ≠ p ∧ x ≠ c.ptr := by simpa [not_or] using hx
    exact Function.update_of_ne hx.2 _ _
  · simp [hlive, hclive, hpc]
  · exact List.forall_mem_cons.mpr ⟨⟨hp1, hp2⟩, List.forall_mem_singleton.mpr S.ptr_notMem⟩

theorem shows_back {r : Region} (S : s.Shows (l₁ ++ c :: l₂))
    (hp : p ∉ l₁.map Cell.ptr ++ c.ptr :: l₂.map Cell.ptr) (hlive : p ∈ s.live) : Shows { s with
      region := Function.update s.region c.ptr r
      next := Function.update (Function.update s.next p (l₂.map Cell.ptr).head?) c.ptr (some p)
      prev := writeAt (Function.update s.prev p (some c.ptr)) (l₂.map Cell.ptr).head? (some p) }
      (l₁ ++ ([⟨c.ptr, r⟩, ⟨p, s.region p⟩] ++ l₂)) := by
  obtain ⟨hpc, hp1, hp2⟩ := Shows.new_notMem hp
  have hclive := S.live c (by simp)
  refine S.splice (m := [c]) ?_ (S.around.1.insert_behind_write S.around.2 hp) ?_ ?_
    (fun x hx _ => hx) (by simpa using hpc.symm) ?_
  · cases l₁ <;> simp [S.dlist.1]
  · intro x hx
    have hx : x ≠ c.ptr ∧ x ≠ p := by simpa [not_or] using hx
    exact Function.update_of_ne hx.1 _ _
  · simp [hlive, hclive, hpc]
  · exact List.forall_mem_cons.mpr ⟨S.ptr_notMem, List.forall_mem_singleton.mpr ⟨hp1, hp2⟩⟩

theorem shows_split {t : Ptr} {r r' : Region} (S : s.Shows (l₁ ++ c :: l₂))
    (hp : p ∉ l₁.map Cell.ptr ++ c.ptr :: l₂.map Cell.ptr)
    (ht : t ∉ l₁.map Cell.ptr ++ c.ptr :: l₂.map Cell.ptr) (hpt : p ≠ t) (hlive : p ∈ s.live) :
    Shows { s with
      region := Function.update (Function.update s.region t r') c.ptr r
      next := Function.update (Function.update (Function.update s.next t (l₂.map Cell.ptr).head?)
        c.ptr (some p)) p (some t)
      prev := Function.update (writeAt (Function.update s.prev t (some p))
        (l₂.map Cell.ptr).head? (some t)) p (some c.ptr)
      live := t :: s.live }
      (l₁ ++ ([⟨c.ptr, r⟩, ⟨p, s.region p⟩, ⟨t, r'⟩] ++ l₂)) := by
  obtain ⟨hpc, hp'⟩ := Shows.new_notMem hp
  obtain ⟨htc, ht'⟩ := Shows.new_notMem ht
  have hclive := S.live c (by simp)
  refine S.splice (m := [c]) ?_ (S.around.1.insert_two_write S.around.2 hp ht hpt) ?_ ?_
    (fun x hx _ => List.mem_cons_of_mem _ hx) ?_ ?_
  · cases l₁ <;> simp [S.dlist.1]
  · intro x hx
    have hx : x ≠ c.ptr ∧ x ≠ p ∧ x ≠ t := by simpa [not_or] using hx
    exact (Function.update_of_ne hx.1 _ _).trans (Function.update_of_ne hx.2.2 _ _)
  · simp [hlive, hclive, hpc, htc, hpt]
  · simp [hpc.symm, htc.symm, hpt]
  · exact List.forall_mem_cons.mpr ⟨S.ptr_notMem, List.forall_mem_cons.mpr
      ⟨hp', List.forall_mem_singleton.mpr ht'⟩⟩

theorem insertRegion_spec (S : s.Shows (l₁ ++ c :: l₂))
    (hp : p ∉ l₁.map Cell.ptr ++ c.ptr :: l₂.map Cell.ptr)
    (hlive : p ∈ s.live) (hnd : s.live.Nodup) (htmp : ∀ t, tmp = some t → t ∉ s.live)
    (hflags : (s.region p).flags ≠ c.reg.flags) (h1 : c.reg.start ≤ (s.region p).start)
    (hle : (s.region p).start ≤ (s.region p).last) (h2 : (s.region p).last ≤ c.reg.last)
    (hc : c.reg.last < 4294967296) :
    s.insertRegion p c.ptr tmp = .ok (.enomem, s) ∨
    ∃ m s', s.insertRegion p c.ptr tmp = .ok (.ok, s') ∧ Cut c p (s.region p) m ∧
      s'.Shows (l₁ ++ (m ++ l₂)) ∧ s.Frame s' ∧ s'.live.Nodup := by
  have hpc := (Shows.new_notMem hp).1
  have hsub : 0 < (s.region p).start →
      Word.sub (s.region p).start 1 = (s.region p).start - 1 := fun h => Word.sub_eq h (by omega)
  have hadd : (s.region p).last < c.reg.last →
      Word.add (s.region p).last 1 = (s.region p).last + 1 := fun h => Word.add_eq (by omega)
  rcases eq_or_lt_of_le h1 with he1 | he1 <;> rcases eq_or_lt_of_le h2 with he2 | he2
  · exact .inr ⟨_, _, insertRegion_replace S hpc.symm hflags he1 he2.symm, .replace he1 he2.symm,
      shows_replace S hp hlive, ⟨rfl, rfl, rfl⟩, hnd.erase _⟩
  · have hrun : s.insertRegion p c.ptr tmp = _ := insertRegion_front S hpc.symm hflags he1 he2.ne'
    rw [hadd he2] at hrun
    exact .inr ⟨_, _, hrun, .front he1 he2, shows_front S hp hlive, ⟨rfl, rfl, rfl⟩, hnd⟩
  · have hrun : s.insertRegion p c.ptr tmp = _ := insertRegion_back S hflags he1.ne he2.symm
    rw [hsub (by omega)] at hrun
    exact .inr ⟨_, _, hrun, .back he1 he2.symm, shows_back S hp hlive, ⟨rfl, rfl, rfl⟩, hnd⟩
  · cases tmp with
    | none => exact .inl (insertRegion_nomem S hflags he1.ne he2.ne')
    | some t =>
      have htl := htmp t rfl
      have ht : t ∉ l₁.map Cell.ptr ++ c.ptr :: l₂.map Cell.ptr := by
        intro h
        rw [← List.map_cons, ← List.map_append] at h
        obtain ⟨d, hd, rfl⟩ := List.mem_map.mp h
        exact htl (S.live d hd)
      have hpt : p ≠ t := fun e => htl (e ▸ hlive)
      have hrun := insertRegion_split S (Shows.new_notMem ht).1.symm hflags he1.ne he2.ne'
      rw [hsub (by omega), hadd he2] at hrun
      exact .inr ⟨_, _, hrun, .split he1 he2, shows_split S hp ht hpt hlive, ⟨rfl, rfl, rfl⟩,
        List.nodup_cons.mpr ⟨htl, hnd⟩⟩

end

/-! ## Joining free regions -/

/-- Two free regions that follow each other have different flags. -/
def Apart (c d : Cell) : Prop :=
  c.reg.used = false → d.reg.used = false → c.reg.flags ≠ d.reg.flags

/-- Two free regions with equal flags that follow each other become one region. -/
inductive Joins : List Cell → List Cell → Prop
  | join {l₁ l₂ : List Cell} {a b c : Cell} (hfree : a.reg.used = false)
      (hflags : a.reg.flags = b.reg.flags) (hstart : c.reg.start = a.reg.start)
      (hlast : c.reg.last = b.reg.last) (hc : c.reg.flags = a.reg.flags) :
    Joins (l₁ ++ a :: b :: l₂) (l₁ ++ c :: l₂)

theorem used_eq {r r' : Region} (h : r.flags = r'.flags) : r.used = r'.used := by
  simp [Region.used, h]

theorem Shows.setFlags {f : RegionFlags} (S : s.Shows (l₁ ++ c :: l₂)) :
    (s.setFlags c.ptr f).Shows (l₁ ++ ⟨c.ptr, { c.reg with flags := f }⟩ :: l₂) := by
  have hc := S.region c (by simp)
  refine S.splice (m := [c]) (k := [⟨c.ptr, { c.reg with flags := f }⟩]) ?_ S.around.1 ?_ ?_
    (fun x hx _ => hx) (by simp) (by simpa using S.ptr_notMem)
  · rw [Rm.setFlags, setRegion, S.dlist.1]
    simp
  · intro x hx
    exact Function.update_of_ne (by simpa using hx) _ _
  · simpa [Rm.setFlags, setRegion, hc] using S.live c (by simp)

section
variable {a b : Cell}

/-- The region of `b` is added to the one before it, or the one before it is added to it: the
descriptor of the other one is taken out of the list. -/
theorem Shows.join_prev {r : Region} (S : s.Shows (l₁ ++ a :: b :: l₂)) :
    Shows { s with
      region := Function.update s.region a.ptr r
      next := Function.update s.next a.ptr (l₂.map Cell.ptr).head?
      prev := writeAt s.prev (l₂.map Cell.ptr).head? (some a.ptr)
      live := s.live.erase b.ptr } (l₁ ++ ⟨a.ptr, r⟩ :: l₂) := by
  have S' : s.Shows ((l₁ ++ [a]) ++ b :: l₂) := by simpa using S
  have hlinks := S'.around.1.remove_write S'.around.2
  simp only [List.map_append, List.map_cons, List.map_nil, List.getLast?_concat, List.append_assoc,
    List.cons_append, List.nil_append] at hlinks
  have hab : a.ptr ≠ b.ptr := by
    have := S.around.2
    simp only [List.map_cons, List.nodup_append, List.nodup_cons, List.mem_cons, not_or] at this
    exact this.2.1.1.1
  refine S.splice (m := [a, b]) (k := [⟨a.ptr, r⟩]) ?_ hlinks ?_ ?_ ?_ (by simp) ?_
  · rw [S.dlist.1]
    simp
  · intro x hx
    exact Function.update_of_ne (by simpa using hx) _ _
  · simpa using (List.mem_erase_of_ne hab).mpr (S.live a (by simp))
  · intro x hx hxm
    have hxm : x ≠ a.ptr ∧ x ≠ b.ptr := by simpa [not_or] using hxm
    exact (List.mem_erase_of_ne hxm.2).mpr hx
  · have := S.ptr_notMem
    simp only [List.map_cons, List.mem_cons, not_or] at this
    exact List.forall_mem_singleton.mpr ⟨this.1, this.2.2⟩

theorem Shows.join_next {r : Region} (S : s.Shows (l₁ ++ a :: b :: l₂)) :
    Shows { s with
      region := Function.update s.region b.ptr r
      next := writeAt s.next (l₁.map Cell.ptr).getLast? (some b.ptr)
      prev := Function.update s.prev b.ptr (l₁.map Cell.ptr).getLast?
      head := if l₁ = [] then some b.ptr else s.head
      live := s.live.erase a.ptr } (l₁ ++ ⟨b.ptr, r⟩ :: l₂) := by
  have hlinks := S.around.1.remove_write S.around.2
  simp only [List.map_cons, List.head?_cons] at hlinks
  have S' : s.Shows ((l₁ ++ [a]) ++ b :: l₂) := by simpa using S
  obtain ⟨hb1, hb2⟩ := S'.ptr_notMem
  simp only [List.map_append, List.map_cons, List.map_nil, List.mem_append, List.mem_singleton,
    not_or] at hb1
  refine S.splice (m := [a, b]) (k := [⟨b.ptr, r⟩]) ?_ hlinks ?_ ?_ ?_ (by simp) ?_
  · cases l₁ <;> simp [S.dlist.1]
  · intro x hx
    exact Function.update_of_ne (by simpa using hx) _ _
  · simpa using (List.mem_erase_of_ne hb1.2).mpr (S.live b (by simp))
  · intro x hx hxm
    have hxm : x ≠ a.ptr ∧ x ≠ b.ptr := by simpa [not_or] using hxm
    exact (List.mem_erase_of_ne hxm.1).mpr hx
  · exact List.forall_mem_singleton.mpr ⟨hb1.1, hb2⟩

end

theorem joinPrev_spec (S : s.Shows (l₁ ++ c :: l₂)) (hnd : s.live.Nodup) :
    ((∀ a ∈ l₁.getLast?, a.reg.flags ≠ c.reg.flags) ∧ s.joinPrev c.ptr = (c.ptr, s)) ∨
    ∃ l₀ a s', l₁ = l₀ ++ [a] ∧ a.reg.flags = c.reg.flags ∧ s.joinPrev c.ptr = (a.ptr, s') ∧
      s'.Shows (l₀ ++ ⟨a.ptr, { a.reg with last := c.reg.last }⟩ :: l₂) ∧ s.Frame s' ∧
      s'.live.Nodup := by
  obtain ⟨hprev, hnext⟩ := S.middle
  have hc := S.region c (by simp)
  rcases List.eq_nil_or_concat l₁ with rfl | ⟨l₀, a, rfl⟩
  · refine .inl ⟨by simp, ?_⟩
    rw [joinPrev, hprev]
    rfl
  · rw [List.concat_eq_append] at *
    have ha := S.region a (by simp)
    have hprev : s.prev c.ptr = some a.ptr := by simpa using hprev
    by_cases hflags : a.reg.flags = c.reg.flags
    · refine .inr ⟨l₀, a, _, rfl, hflags, ?_, Shows.join_prev (b := c) (by simpa using S),
        ⟨rfl, rfl, rfl⟩, hnd.erase _⟩
      simp only [joinPrev, hprev, ha, hc, if_pos hflags, setRegion, setNext, setPrevIf, descFree,
        hnext, Function.update_self]
    · refine .inl ⟨by simpa using hflags, ?_⟩
      simp only [joinPrev, hprev, ha, hc, if_neg hflags]

theorem joinNext_spec (S : s.Shows (l₁ ++ c :: l₂)) (hnd : s.live.Nodup) :
    ((∀ b ∈ l₂.head?, c.reg.flags ≠ b.reg.flags) ∧ s.joinNext c.ptr = .ok s) ∨
    ∃ b l₃ s', l₂ = b :: l₃ ∧ c.reg.flags = b.reg.flags ∧ s.joinNext c.ptr = .ok s' ∧
      s'.Shows (l₁ ++ ⟨b.ptr, { b.reg with start := c.reg.start }⟩ :: l₃) ∧ s.Frame s' ∧
      s'.live.Nodup := by
  obtain ⟨hprev, hnext⟩ := S.middle
  have hc := S.region c (by simp)
  cases l₂ with
  | nil =>
    refine .inl ⟨by simp, ?_⟩
    rw [joinNext, hnext]
    rfl
  | cons b l₃ =>
    have hb := S.region b (by simp)
    have hnext : s.next c.ptr = some b.ptr := hnext
    by_cases hflags : c.reg.flags = b.reg.flags
    · refine .inr ⟨b, l₃, _, rfl, hflags, ?_, S.join_next, ⟨rfl, rfl, rfl⟩, hnd.erase _⟩
      simp only [joinNext, hnext, hb, hc, if_pos hflags, setRegion, setPrev, descFree, hprev,
        Function.update_self]
      by_cases hl : l₁ = []
      · subst hl
        rw [if_pos (S.head_eq.mpr rfl)]
        rfl
      · rw [if_neg (fun h => hl (S.head_eq.mp h)), setNextOf_getLast hl, if_neg hl]
        rfl
    · refine .inl ⟨by simpa using hflags, ?_⟩
      simp only [joinNext, hnext, hb, hc, if_neg hflags]
      rfl

/-- A used region only gets its new flags. -/
theorem modifyRegion_used {f : RegionFlags} (h : f.type ≠ .free) {p : Ptr} :
    s.modifyRegion p f = .ok (s.setFlags p f) := by
  have : ((s.setFlags p f).region p).used = true := by
    simpa [Region.used, Rm.setFlags, setRegion] using h
  rw [modifyRegion, if_pos this]
  rfl

section
variable {a b : Cell}

theorem Apart.congr (h : Apart a b) {a' b' : Cell} (ha : a'.reg.flags = a.reg.flags)
    (hb : b'.reg.flags = b.reg.flags) : Apart a' b' := by
  intro h1 h2
  rw [ha, hb]
  exact h (by rw [← used_eq ha, h1]) (by rw [← used_eq hb, h2])

theorem apart_of_ne (h : a.reg.flags ≠ b.reg.flags) : Apart a b := fun _ _ => h

theorem isChain_concat : (l ++ [a]).IsChain Apart ↔
    l.IsChain Apart ∧ ∀ b ∈ l.getLast?, Apart b a := by
  simp [List.isChain_append]

theorem isChain_concat_congr (h : (l ++ [a]).IsChain Apart) (hb : b.reg.flags = a.reg.flags) :
    (l ++ [b]).IsChain Apart := by
  rw [isChain_concat] at h ⊢
  exact ⟨h.1, fun d hd => (h.2 d hd).congr rfl hb⟩

theorem isChain_cons_congr (h : (a :: l).IsChain Apart) (hb : b.reg.flags = a.reg.flags) :
    (b :: l).IsChain Apart := by
  cases l with
  | nil => exact .singleton _
  | cons d l =>
    rw [List.isChain_cons_cons] at h ⊢
    exact ⟨h.1.congr hb rfl, h.2⟩

end

/-- The join with the previous region, as one step. -/
theorem joinPrev_joins (S : s.Shows (l₁ ++ c :: l₂)) (hnd : s.live.Nodup)
    (hfree : c.reg.used = false) :
    ∃ l₀ d s', s.joinPrev c.ptr = (d.ptr, s') ∧ s'.Shows (l₀ ++ d :: l₂) ∧ s.Frame s' ∧
      s'.live.Nodup ∧ d.reg.flags = c.reg.flags ∧
      Relation.ReflTransGen Joins (l₁ ++ c :: l₂) (l₀ ++ d :: l₂) ∧
      (l₁.IsChain Apart → (l₀ ++ [d]).IsChain Apart) ∧
      ∀ e, e.reg.flags ≠ c.reg.flags → (e ∈ l₀ ++ d :: l₂ ↔ e ∈ l₁ ++ c :: l₂) := by
  obtain ⟨hne, hrun⟩ | ⟨l₀, a, s', rfl, hflags, hrun, S', hF, hnd'⟩ := joinPrev_spec S hnd
  · refine ⟨l₁, c, s, hrun, S, .refl, hnd, rfl, .refl, fun h => ?_, fun _ _ => Iff.rfl⟩
    exact isChain_concat.mpr ⟨h, fun a ha => apart_of_ne (hne a ha)⟩
  · refine ⟨l₀, ⟨a.ptr, { a.reg with last := c.reg.last }⟩, s', hrun, S', hF, hnd', hflags, ?_,
      fun h => isChain_concat_congr h rfl, fun e he => ?_⟩
    · rw [List.append_assoc]
      exact .single (.join (by rw [used_eq hflags, hfree]) hflags rfl rfl rfl)
    · have hd : e ≠ ⟨a.ptr, { a.reg with last := c.reg.last }⟩ := fun h => he (h ▸ hflags)
      have ha : e ≠ a := fun h => he (h ▸ hflags)
      have hc : e ≠ c := fun h => he (h ▸ rfl)
      simp [hd, ha, hc]

theorem joinNext_joins (S : s.Shows (l₁ ++ c :: l₂)) (hnd : s.live.Nodup)
    (hfree : c.reg.used = false) :
    ∃ l s', s.joinNext c.ptr = .ok s' ∧ s'.Shows l ∧ s.Frame s' ∧ s'.live.Nodup ∧
      Relation.ReflTransGen Joins (l₁ ++ c :: l₂) l ∧
      ((l₁ ++ [c]).IsChain Apart → l₂.IsChain Apart → l.IsChain Apart) ∧
      ∀ e, e.reg.flags ≠ c.reg.flags → (e ∈ l ↔ e ∈ l₁ ++ c :: l₂) := by
  obtain ⟨hne, hrun⟩ | ⟨b, l₃, s', rfl, hflags, hrun, S', hF, hnd'⟩ := joinNext_spec S hnd
  · refine ⟨_, s, hrun, S, .refl, hnd, .refl, fun h1 h2 => List.isChain_split.mpr ⟨h1, ?_⟩,
      fun _ _ => Iff.rfl⟩
    cases l₂ with
    | nil => exact .singleton _
    | cons b l₃ => exact List.isChain_cons_cons.mpr ⟨apart_of_ne (hne b rfl), h2⟩
  · refine ⟨_, s', hrun, S', hF, hnd', .single (.join hfree hflags rfl rfl hflags.symm), ?_, ?_⟩
    · intro h1 h2
      exact List.isChain_split.mpr ⟨isChain_concat_congr h1 hflags.symm, isChain_cons_congr h2 rfl⟩
    · intro e he
      have hd : e ≠ ⟨b.ptr, { b.reg with start := c.reg.start }⟩ := fun h => he (h ▸ hflags.symm)
      have hb : e ≠ b := fun h => he (h ▸ hflags.symm)
      have hc : e ≠ c := fun h => he (h ▸ rfl)
      simp [hd, hb, hc]

/-- A region that gets the flags of a free one is joined with its neighbours. The regions with other
flags stay. -/
theorem modifyRegion_free {f : RegionFlags} (S : s.Shows (l₁ ++ c :: l₂)) (hnd : s.live.Nodup)
    (hf : f.type = .free) :
    ∃ l s', s.modifyRegion c.ptr f = .ok s' ∧ s'.Shows l ∧ s.Frame s' ∧ s'.live.Nodup ∧
      Relation.ReflTransGen Joins (l₁ ++ ⟨c.ptr, { c.reg with flags := f }⟩ :: l₂) l ∧
      (l₁.IsChain Apart → l₂.IsChain Apart → l.IsChain Apart) ∧
      ∀ e, e.reg.flags ≠ f → (e ∈ l ↔ e ∈ l₁ ++ ⟨c.ptr, { c.reg with flags := f }⟩ :: l₂) := by
  have hused : Region.used { c.reg with flags := f } = false := by simp [Region.used, hf]
  have S₀ := S.setFlags (f := f)
  have hreg := S₀.region ⟨c.ptr, { c.reg with flags := f }⟩ (by simp)
  have hF₀ : s.Frame (s.setFlags c.ptr f) := ⟨rfl, rfl, rfl⟩
  obtain ⟨l₀, d, s₁, hrun₁, S₁, hF₁, hnd₁, hd, hj₁, hch₁, hkeep₁⟩ := joinPrev_joins S₀ hnd hused
  obtain ⟨l, s₂, hrun₂, S₂, hF₂, hnd₂, hj₂, hch₂, hkeep₂⟩ :=
    joinNext_joins S₁ hnd₁ (by rw [used_eq hd, hused])
  refine ⟨l, s₂, ?_, S₂, (hF₀.trans hF₁).trans hF₂, hnd₂, hj₁.trans hj₂,
    fun h1 h2 => hch₂ (hch₁ h1) h2, fun e he => (hkeep₂ e ?_).trans (hkeep₁ e he)⟩
  · simp only [modifyRegion, hreg, hused, Bool.false_eq_true, if_false, hrun₁, hrun₂]
  · rw [hd]
    exact he

end Rm

end L4env.L4rm
