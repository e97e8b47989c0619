import L4env.Sigma0.Pager

/-!
# The pager of sigma0: what is mapped

`Follows` says that an answer with a flexpage gives the sender only what was free or its own and is its
own afterwards, and that nobody else loses anything. The kernel truncates the address of a flexpage to
its size, the pager does not: it reserves a block from the address on, so `Safe` asks for the rest of
the aligned block. And the owner 0 of the kernel's requests is the mark of free memory.
-/

namespace L4env.Sigma0

variable {A : Type} {N : NodeAlloc A} {V : Balancing} {s s' : State A} {m : Mem} {t a b e : Nat}
  {P : Nat → Prop}

/-- The task `t` has the address. What is in no region belongs to sigma0, and the owner 0 is nobody. -/
def Ownership.Held (w : Ownership) (m : Mem) (a t : Nat) : Prop :=
  t ≠ 0 ∧ w m a = if t = sigma0TaskNo then none else some t

/-- The addresses of a flexpage: its own one is truncated to the size. -/
def Fpage.Covers (f : Fpage) (a : Nat) : Prop :=
  if f.isIopage then a / 2 ^ (f.size + 12) = f.iopage * 4096 / 2 ^ (f.size + 12)
  else a / 2 ^ f.size = f.page * 4096 / 2 ^ f.size

theorem Fpage.isIopage_of_cache {f : Fpage} (h : f.cache ≠ 0) : f.isIopage = false := by
  simp [isIopage, isIoPageFault, h]

theorem State.TreeInv.not_sigma0 (h : s.TreeInv) : s.ownership m a ≠ some sigma0TaskNo := by
  intro ha
  obtain ⟨q, hq, -, ho⟩ := h.ownership_eq.mp ha
  exact h.foreign m q hq ho

namespace Pager

variable {req : Requests} {x : Msg} {i : Info}

/-- The nodes for the new regions were there. -/
structure Sufficed (s s' : State A) : Prop where
  outOfMemory : s'.outOfMemory = false
  pages : s'.pages = s.pages

theorem Sufficed.assign (hs : Sufficed s s') (h : State.Changed s s' m P t) :
    s'.ownership = s.ownership.assign m P t := by
  obtain ⟨ps, hps, -, -, how⟩ := h
  rw [hs.pages, List.self_eq_append_left] at hps
  subst hps
  rw [how]
  funext m' c
  exact if_neg onPages_nil

/-- The map that an answer to the request is about. -/
def Answer.mem (a : Answer) (req : Requests) : Mem :=
  if a.d2.isIopage then .ioPorts
  else if req = .mapIomem ∨ req = .mapIomemCached then .iomem
  else .ram

/-- What an answer may do. The page of the kernel's information and the one of the trace buffer are for
everyone. -/
structure Follows (s s' : State A) (req : Requests) (t : Nat) (ans : Answer) : Prop where
  owned : ans.msg = shortFpage → req ≠ .mapKip → req ≠ .mapTbuf → ∀ c, ans.d2.Covers c →
    (s.ownership (ans.mem req) c = some 0 ∨ s.ownership.Held (ans.mem req) c t) ∧
      s'.ownership.Held (ans.mem req) c t
  others : ∀ m c o, o ≠ 0 → o ≠ t → (s'.ownership m c = some o ↔ s.ownership m c = some o)
  refused : ans.msg = shortMsg → s' = s

theorem Follows.unchanged {ans : Answer} (h : ans.msg = shortFpage → req = .mapKip ∨ req = .mapTbuf) :
    Follows s s req t ans :=
  ⟨fun hmsg hk ht => absurd (h hmsg) (by simp [hk, ht]), fun _ _ _ _ _ => .rfl, fun _ => rfl⟩

theorem Follows.empty : Follows s s req t .empty := .unchanged fun h => by cases h

/-- The answer maps the block of the size `2 ^ e` that `b` is in. -/
structure Sends (ans : Answer) (req : Requests) (m : Mem) (b e : Nat) : Prop where
  msg : ans.msg = shortFpage
  kip : req ≠ .mapKip
  tbuf : req ≠ .mapTbuf
  mem : ans.mem req = m
  covers : ∀ c, ans.d2.Covers c ↔ c / 2 ^ e = b / 2 ^ e

/-- The block is sent, and the addresses `P` in it were entered for the sender. -/
theorem Sends.follows_iff_held {ans : Answer} (H : Sends ans req m b e) (h : s.TreeInv)
    (hw : s'.ownership = s.ownership.assign m P t)
    (hP : ∀ c, P c → s.ownership m c = some 0 ∨ s.ownership m c = some t) :
    Follows s s' req t ans ↔
      t ≠ 0 ∧ ∀ c, c / 2 ^ e = b / 2 ^ e → ¬P c → s.ownership.Held m c t := by
  have hin : ∀ c, P c → s'.ownership m c = if t = sigma0TaskNo then none else some t := by
    intro c hc
    rw [hw]
    exact if_pos ⟨rfl, hc⟩
  have hout : ∀ m' c, ¬(m' = m ∧ P c) → s'.ownership m' c = s.ownership m' c := by
    intro m' c hc
    rw [hw]
    exact if_neg hc
  constructor
  · intro F
    have howned := F.owned H.msg H.kip H.tbuf
    rw [H.mem] at howned
    refine ⟨(howned b ((H.covers b).mpr rfl)).2.1, fun c hc hnot => ?_⟩
    obtain ⟨h0, hheld⟩ := (howned c ((H.covers c).mpr hc)).2
    exact ⟨h0, (hout m c fun hc => hnot hc.2).symm.trans hheld⟩
  · rintro ⟨h0, hrest⟩
    refine ⟨fun _ _ _ c hc => ?_, fun m' c o ho hot => ?_, fun hmsg => ?_⟩
    · rw [H.mem]
      by_cases hPc : P c
      · refine ⟨(hP c hPc).imp_right fun hown => ⟨h0, ?_⟩, h0, hin c hPc⟩
        rw [if_neg, hown]
        rintro rfl
        exact h.not_sigma0 hown
      · have hheld := hrest c ((H.covers c).mp hc) hPc
        exact ⟨.inr hheld, h0, (hout m c fun hc => hPc hc.2).trans hheld.2⟩
    · by_cases hc : m' = m ∧ P c
      · obtain ⟨rfl, hc⟩ := hc
        rw [hin c hc]
        refine iff_of_false (fun hnew => ?_) fun hold => ?_
        · split at hnew
          · cases hnew
          · exact hot (Option.some.inj hnew).symm
        · obtain hfree | hown := hP c hc
          · exact ho (Option.some.inj (hold.symm.trans hfree))
          · exact hot (Option.some.inj (hold.symm.trans hown))
      · rw [hout m' c hc]
    · rw [H.msg] at hmsg
      cases hmsg

/-! ## A block at a given address -/

/-- If the block is given out, it is to a task other than the kernel, which has what lies in the aligned
block and not in this one. -/
def SafeBlock (s : State A) (m : Mem) (b e t : Nat) : Prop :=
  s.Allocatable m (.bs b (2 ^ e) t) →
    t ≠ 0 ∧ ∀ c, c / 2 ^ e = b / 2 ^ e → ¬(Region.bs b (2 ^ e) t).Covers c → s.ownership.Held m c t

theorem two_pow_page (he : 12 ≤ e) : 2 ^ e % 4096 = 0 := by
  have hpow : (2 : Nat) ^ 12 ∣ 2 ^ e := Nat.pow_dvd_pow 2 he
  exact Nat.mod_eq_zero_of_dvd hpow

theorem bs_aligned (ht : t < 2048) (he : 12 ≤ e) (hb : b % 4096 = 0) (hlt : b < 4294967296) :
    (Region.bs b (2 ^ e) t).Aligned ∧ (Region.bs b (2 ^ e) t).start = b ∧
      (Region.bs b (2 ^ e) t).owner = t := by
  have hpage := two_pow_page he
  have hne : 2 ^ e ≠ 0 := (Nat.two_pow_pos e).ne'
  rw [Region.bs, if_neg hne]
  have ht' : t < 4096 := by omega
  refine ⟨⟨Region.of_l_lt hlt ht', ?_, ?_⟩, ?_, Region.of_owner hlt ht'⟩
  · rw [Region.of_stop]
    exact Word.sub_lt _ _
  · rw [Region.of_stop, Word.sub, Word.add]
    generalize 2 ^ e = size at *
    omega
  · rw [Region.of_start hlt ht', hb, Nat.sub_zero]

theorem alloc_follows (h : s.Inv) (ht : t < 2048) (he : 12 ≤ e) (hb : b % 4096 = 0)
    (hlt : b < 4294967296) {f : Nat → Answer} (hempty : f noAddr = .empty)
    (hsends : Sends (f b) req m b e) :
    ∃ ans s', Returns (fun n => (s.alloc N V n m (.bs b (2 ^ e) t)).map fun p => (f p.1, p.2))
        (ans, s') ∧
      (Sufficed s s' → (Follows s s' req t ans ↔ SafeBlock s m b e t)) := by
  obtain ⟨hr, hstart, howner⟩ := bs_aligned ht he hb hlt
  unfold SafeBlock
  generalize Region.bs b (2 ^ e) t = r at *
  obtain ⟨a, s', hret, hmeets, -⟩ := h.alloc (N := N) (V := V) (m := m) hr
  refine ⟨f a, s', hret.map fun p => (f p.1, p.2), fun hs => ?_⟩
  obtain ⟨hallo, ha, hchange⟩ | ⟨hno, ha, rfl⟩ := hmeets hs.outOfMemory
  · obtain rfl : a = b := (Answer.addr.inj ha).trans hstart
    rw [forall_prop_of_true hallo]
    obtain ⟨-, q, hq, hc, hown⟩ := hallo
    rw [howner] at hchange hown
    obtain ⟨hle, hge⟩ := Region.contains_iff.mp hc
    refine hsends.follows_iff_held h.toTreeInv (hs.assign hchange) fun c hrc => ?_
    have hqc : q.Covers c := ⟨hle.trans hrc.1, hrc.2.trans hge⟩
    refine hown.imp (fun h0 => ?_) fun h0 => ?_ <;>
      exact h.ownership_eq.mpr ⟨q, hq, hqc, h0⟩
  · obtain rfl : a = noAddr := Answer.addr.inj ha
    rw [hempty]
    exact iff_of_true .empty fun hallo => absurd hallo hno

/-! ## The first free block -/

theorem allocFirst_follows (h : s.Inv) (ht : t < 2048) (he : 12 ≤ e) (he' : e < 32)
    (hsearch : ∀ q ∈ s.keys .ram, q.owner = 0 → 4294967296 < q.start + 2 ^ e →
      ∃ b < q.start, s.FreeBlock .ram (2 ^ e) b) {f : Nat → Answer} (hempty : f noAddr = .empty)
    (hsends : ∀ b, b % 4096 = 0 → Sends (f b) req .ram b e) :
    ∃ ans s', Returns (fun n => (s.allocFirst N V n .ram (2 ^ e) t).map fun p => (f p.1, p.2))
        (ans, s') ∧
      (Sufficed s s' → (Follows s s' req t ans ↔ ((∃ b, s.FreeBlock .ram (2 ^ e) b) → t ≠ 0))) := by
  have hreg : Op.Regular s (.allocFirst .ram (2 ^ e) t) := ⟨by omega, hsearch⟩
  obtain ⟨a, s', hret, hmeets, -⟩ := h.allocFirst (N := N) (V := V) he he' hreg
  refine ⟨f a, s', hret.map fun p => (f p.1, p.2), fun hs => ?_⟩
  obtain ⟨b, ⟨hfree, -⟩, ha, hchange⟩ | ⟨hno, ha, rfl⟩ := hmeets hs.outOfMemory
  · obtain rfl : a = b := Answer.addr.inj ha
    rw [forall_prop_of_true ⟨a, hfree⟩]
    obtain ⟨hdvd, q, hq, hown, hle, hge⟩ := hfree
    have hpow : (2 : Nat) ^ 12 ∣ 2 ^ e := Nat.pow_dvd_pow 2 he
    have hpage : a % 4096 = 0 := Nat.mod_eq_zero_of_dvd (hpow.trans hdvd)
    have hpos := Nat.two_pow_pos e
    have hiff := (hsends a hpage).follows_iff_held h.toTreeInv (P := fun c => a ≤ c ∧ c < a + 2 ^ e)
      (hs.assign hchange) fun c hc => ?_
    · refine hiff.trans (and_iff_left fun c hc hnot => ?_)
      -- the block is the aligned one
      obtain ⟨k, rfl⟩ := hdvd
      refine absurd ?_ hnot
      rw [Nat.mul_div_cancel_left _ hpos, Nat.div_eq_iff hpos] at hc
      rw [Nat.mul_comm (2 ^ e) k]
      omega
    · exact .inl (h.ownership_eq.mpr ⟨q, hq, ⟨hle.trans hc.1, by omega⟩, hown⟩)
  · obtain rfl : a = noAddr := Answer.addr.inj ha
    rw [hempty]
    exact iff_of_true .empty fun hex => absurd hex (not_exists.mpr hno)

/-! ## The answers -/

theorem ne_noAddr (hb : b % 4096 = 0) : b ≠ noAddr := by
  rintro rfl
  cases hb

/-- An answer with a flexpage of memory. -/
theorem sends_mem {ans : Answer} (hmsg : ans.msg = shortFpage) (hcache : ans.d2.cache ≠ 0)
    (hsize : ans.d2.size = e) (hpage : ans.d2.page = b / 4096) (hb : b % 4096 = 0)
    (hkip : req ≠ .mapKip) (htbuf : req ≠ .mapTbuf)
    (hm : (if req = .mapIomem ∨ req = .mapIomemCached then Mem.iomem else .ram) = m) :
    Sends ans req m b e := by
  have hio := Fpage.isIopage_of_cache hcache
  refine ⟨hmsg, hkip, htbuf, ?_, fun c => ?_⟩
  · rw [Answer.mem, hio]
    exact hm
  · rw [Fpage.Covers, hio, hsize, hpage, Nat.div_mul_cancel (Nat.dvd_of_mod_eq_zero hb)]
    exact .rfl

theorem freePageAnswer_sends (he : e < 64) (hb : b % 4096 = 0) (hkip : req ≠ .mapKip)
    (htbuf : req ≠ .mapTbuf) (hm : ¬(req = .mapIomem ∨ req = .mapIomemCached)) :
    Sends (freePageAnswer e t b) req .ram b e := by
  have hsize : e % 64 = e := Nat.mod_eq_of_lt he
  rw [freePageAnswer, if_pos (ne_noAddr hb)]
  dsimp only
  split
  · exact sends_mem rfl (Nat.succ_ne_zero 2) hsize rfl hb hkip htbuf (if_neg hm)
  · exact sends_mem rfl (Nat.succ_ne_zero 2) hsize rfl hb hkip htbuf (if_neg hm)

theorem memAnswer_sends {fn : MemoryType} (he : e < 64) (hb : b % 4096 = 0) (hkip : req ≠ .mapKip)
    (htbuf : req ≠ .mapTbuf)
    (hm : (if req = .mapIomem ∨ req = .mapIomemCached then Mem.iomem else .ram) = m) :
    Sends (memAnswer fn e b) req m b e := by
  have hsize : e % 64 = e := Nat.mod_eq_of_lt he
  rw [memAnswer, if_neg (ne_noAddr hb)]
  dsimp only
  split
  · exact sends_mem rfl Nat.one_ne_zero hsize rfl hb hkip htbuf hm
  · exact sends_mem rfl (Nat.succ_ne_zero 2) hsize rfl hb hkip htbuf hm

theorem pfa_lt (x : Msg) : pfa x.d1 < 4294967296 := lt_of_le_of_lt (Nat.sub_le _ _) x.d1_lt

theorem truncPage_pfa (x : Msg) : truncPage (pfa x.d1) = pfa x.d1 - pfa x.d1 % 4096 :=
  Region.truncPage_eq (pfa_lt x)

theorem faultAnswer_sends (x : Msg) :
    Sends (faultAnswer x.d1 (truncPage (pfa x.d1))) .none .ram (truncPage (pfa x.d1)) logPageSize := by
  have hpage : truncPage (pfa x.d1) % 4096 = 0 ∧ pfa x.d1 / 4096 = truncPage (pfa x.d1) / 4096 := by
    rw [truncPage_pfa]
    omega
  rw [faultAnswer, if_pos (ne_noAddr hpage.1)]
  exact sends_mem rfl (Nat.succ_ne_zero 2) rfl hpage.2 hpage.1 (by simp) (by simp) (if_neg (by simp))

theorem ioAnswer_sends {d1 : Fpage} (hsize : d1.size < 64) :
    Sends (ioAnswer d1 (portOf d1)) .none .ioPorts (portOf d1) (portSize d1) := by
  have hport : portOf d1 / 4096 = d1.iopage := Nat.mul_div_cancel _ (by decide)
  have hlt : d1.iopage < 65536 := Nat.mod_lt _ (by decide)
  have hshift : portSize d1 - 12 = d1.size := Nat.add_sub_cancel ..
  have hio : (l4Iofpage d1.iopage d1.size 0).isIopage = true := by
    simp only [l4Iofpage, Fpage.isIopage, Fpage.isIoPageFault, decide_eq_true_eq, and_true]
    omega
  have hpage : (l4Iofpage d1.iopage d1.size 0).iopage = d1.iopage := by
    simp only [l4Iofpage, Fpage.iopage] at hlt ⊢
    omega
  rw [ioAnswer, if_pos rfl, hport, hshift]
  refine ⟨rfl, by simp, by simp, ?_, fun c => ?_⟩
  · rw [Answer.mem]
    exact if_pos hio
  · rw [Fpage.Covers, if_pos hio, hpage]
    show c / 2 ^ (d1.size % 64 + 12) = d1.iopage * 4096 / 2 ^ (d1.size % 64 + 12) ↔ _
    rw [Nat.mod_eq_of_lt hsize]
    exact .rfl

/-! ## A message -/

def Msg.request (x : Msg) : Requests := getRequest x.d1 x.d2 x.label

def Msg.isFault (x : Msg) : Prop := x.label = pageFaultLabel ∨ x.label = ioPageFaultLabel

/-- The search for a superpage ends before a free region so close to the end of the address space that
its start, rounded up, wraps. The size of an I/O flexpage is not too large for the shift. -/
def Regular (s : State A) (x : Msg) : Prop :=
  match x.request with
  | .mapFreeSuperpage => ∀ q ∈ s.keys .ram, q.owner = 0 →
    4294967296 < q.start + 2 ^ logSuperpageSize → ∃ b < q.start, s.FreeBlock .ram (2 ^ logSuperpageSize) b
  | .none => x.isFault → (faultWord x.d1).isIoPageFault = true → portSize (faultWord x.d1) < 32
  | _ => True

/-- What the request takes is not for the kernel, and the sender has the rest of the aligned block. -/
def Safe (s : State A) (x : Msg) : Prop :=
  match x.request with
  | .mapFreePage => (∃ b, s.FreeBlock .ram (2 ^ logPageSize) b) → x.task ≠ 0
  | .mapFreeSuperpage => (∃ b, s.FreeBlock .ram (2 ^ logSuperpageSize) b) → x.task ≠ 0
  | .mapRam => SafeBlock s .ram ((Fpage.ofWord x.d2).page * 4096) (mapSize (.ofWord x.d2)) x.task
  | .mapIomem | .mapIomemCached =>
    SafeBlock s .iomem ((Fpage.ofWord x.d2).page * 4096) (mapSize (.ofWord x.d2)) x.task
  | .none => x.isFault →
    if (faultWord x.d1).isIoPageFault = true then
      SafeBlock s .ioPorts (portOf (faultWord x.d1)) (portSize (faultWord x.d1)) x.task
    else SafeBlock s .ram (truncPage (pfa x.d1)) logPageSize x.task
  | .mapKip | .mapTbuf | .debugDump => True

theorem mapSize_bounds (fp : Fpage) : 12 ≤ mapSize fp ∧ mapSize fp < 64 := by
  unfold mapSize
  split <;> decide

theorem mapMem_follows (h : s.Inv) (x : Msg) (fn : MemoryType) (hkip : req ≠ .mapKip)
    (htbuf : req ≠ .mapTbuf)
    (hm : (if req = .mapIomem ∨ req = .mapIomemCached then Mem.iomem else .ram) = fn.mem) :
    ∃ ans s', Returns (fun n => mapMem N V n s (.ofWord x.d2) fn x.task) (ans, s') ∧
      (Sufficed s s' → (Follows s s' req x.task ans ↔
        SafeBlock s fn.mem ((Fpage.ofWord x.d2).page * 4096) (mapSize (.ofWord x.d2)) x.task)) := by
  have hsize := mapSize_bounds (.ofWord x.d2)
  have hb : (Fpage.ofWord x.d2).page * 4096 % 4096 = 0 := Nat.mul_mod_left ..
  have hlt : (Fpage.ofWord x.d2).page * 4096 < 4294967296 :=
    lt_of_le_of_lt (Nat.div_mul_le_self ..) x.d2_lt
  exact alloc_follows h x.task_lt hsize.1 hb hlt (if_pos rfl)
    (memAnswer_sends hsize.2 hb hkip htbuf hm)

theorem handlePageFault_follows (h : s.Inv) (x : Msg)
    (hreg : x.isFault → (faultWord x.d1).isIoPageFault = true → portSize (faultWord x.d1) < 32) :
    ∃ ans s', Returns (fun n => handlePageFault N V n s x.d1 x.task x.label) (ans, s') ∧
      (Sufficed s s' → (Follows s s' .none x.task ans ↔ (x.isFault →
        if (faultWord x.d1).isIoPageFault = true then
          SafeBlock s .ioPorts (portOf (faultWord x.d1)) (portSize (faultWord x.d1)) x.task
        else SafeBlock s .ram (truncPage (pfa x.d1)) logPageSize x.task))) := by
  unfold handlePageFault
  by_cases hfault : x.isFault
  · have hlabel : ¬(x.label ≠ pageFaultLabel ∧ x.label ≠ ioPageFaultLabel) := by
      rw [← not_or, not_not]
      exact hfault
    simp only [if_neg hlabel, forall_prop_of_true hfault]
    by_cases hio : (faultWord x.d1).isIoPageFault = true
    · have hsize : (faultWord x.d1).size < 64 := Nat.mod_lt _ (by decide)
      have hlt : portOf (faultWord x.d1) < 4294967296 := by
        have : (faultWord x.d1).iopage < 65536 := Nat.mod_lt _ (by decide)
        rw [portOf]
        omega
      have hshift : portSize (faultWord x.d1) % 32 = portSize (faultWord x.d1) :=
        Nat.mod_eq_of_lt (hreg hfault hio)
      simp only [if_pos hio, handleIoPageFault, hshift]
      exact alloc_follows h x.task_lt (Nat.le_add_left ..) (Nat.mul_mod_left ..) hlt
        (if_neg (ne_noAddr (Nat.mul_mod_left ..)).symm) (ioAnswer_sends hsize)
    · have hpfa := truncPage_pfa x
      have hlt := pfa_lt x
      simp only [if_neg hio]
      exact alloc_follows h x.task_lt (by decide) (by omega) (by omega) (if_neg (by simp))
        (faultAnswer_sends x)
  · have hlabel : x.label ≠ pageFaultLabel ∧ x.label ≠ ioPageFaultLabel := not_or.mp hfault
    refine ⟨.empty, s, (Returns.const _).congr fun n => if_pos hlabel, fun _ => ?_⟩
    exact iff_of_true .empty fun hf => absurd hf hfault

/-- The pager answers every message, and what it maps follows the rules exactly if the request is safe. -/
theorem follows_iff_safe (h : s.Inv) (hreg : Regular s x) :
    ∃ ans s', Returns (fun n => handle N V i n s x) (ans, s') ∧
      (Sufficed s s' → (Follows s s' x.request x.task ans ↔ Safe s x)) := by
  unfold handle Safe
  unfold Regular at hreg
  rw [show getRequest x.d1 x.d2 x.label = x.request from rfl]
  generalize x.request = req at hreg ⊢
  cases req with
  | none => exact handlePageFault_follows h x hreg
  | mapFreePage =>
    refine allocFirst_follows h x.task_lt (by decide) (by decide) (fun q hq _ hwrap => ?_) (if_neg (by simp))
      fun b hb => freePageAnswer_sends (by decide) hb (by simp) (by simp) (by simp)
    have hmod := (h.ok .ram q hq).start_mod
    have hlt := (h.ok .ram q hq).start_lt
    change 4294967296 < q.start + 2 ^ 12 at hwrap
    omega
  | mapFreeSuperpage =>
    exact allocFirst_follows h x.task_lt (by decide) (by decide) hreg (if_neg (by simp))
      fun b hb => freePageAnswer_sends (by decide) hb (by simp) (by simp) (by simp)
  | mapKip => exact ⟨mapKip i, s, Returns.const _, fun _ => iff_of_true (.unchanged fun _ => .inl rfl) trivial⟩
  | mapTbuf => exact ⟨mapTbuf i, s, Returns.const _, fun _ => iff_of_true (.unchanged fun _ => .inr rfl) trivial⟩
  | mapRam => exact mapMem_follows h x .ram (by simp) (by simp) (if_neg (by simp))
  | mapIomem => exact mapMem_follows h x .ioMem (by simp) (by simp) (if_pos (by simp))
  | mapIomemCached => exact mapMem_follows h x .ioMemCached (by simp) (by simp) (if_pos (by simp))
  | debugDump => exact ⟨.empty, s, Returns.const _, fun _ => iff_of_true .empty trivial⟩

/-! ## An unaligned superpage -/

/-- All memory is free from the second page on, up to the end of the first page behind a superpage. -/
def secondPageOn : State Unit :=
  ⟨Function.update (fun _ => .nil) .ram (.node (.of 0x1000 0x400fff 0) .nil .nil), (), [], false⟩

theorem secondPageOn_inv : secondPageOn.Inv := by
  have hkeys : ∀ m, ∀ q ∈ secondPageOn.keys m, q = .of 0x1000 0x400fff 0 := by
    intro m q hq
    cases m with
    | ram => simpa [State.keys, secondPageOn] using hq
    | iomem => simp [State.keys, secondPageOn] at hq
    | ioPorts => simp [State.keys, secondPageOn] at hq
  refine ⟨⟨fun m q hq => ?_, fun m => ?_, fun m q hq => ?_, fun m q hq q' hq' hadj => ?_⟩,
    fun m c o _ => onPages_nil⟩
  · rw [hkeys m q hq]
    exact Region.of_ok (by decide) (by decide) (by decide) (by decide) (by decide)
  · cases m with
    | ram => exact .cons (by simp) .nil
    | iomem => exact .nil
    | ioPorts => exact .nil
  · rw [hkeys m q hq, Region.of_owner (by decide) (by decide)]
    decide
  · rw [hkeys m q hq, hkeys m q' hq'] at hadj
    exact absurd hadj (by decide +kernel)

/-- Task 5 asks for the superpage at the second page. -/
def askSuperpage : Msg := ⟨0xffffff60, 0x1058, sigma0Label, 5, by decide, by decide, by decide⟩

theorem follows_iff_safe_superpage :
    ∃ ans s', Returns (fun n => handle manyNodes noBalancing ⟨0, 0⟩ n secondPageOn askSuperpage) (ans, s') ∧
      (Sufficed secondPageOn s' →
        (Follows secondPageOn s' askSuperpage.request askSuperpage.task ans ↔
          Safe secondPageOn askSuperpage)) :=
  follows_iff_safe secondPageOn_inv trivial

/-- The answer is a flexpage with the first page, which is in no map. -/
theorem foreign_page_sent : secondPageOn.Inv ∧ ∃ n ans s',
    handle manyNodes noBalancing ⟨0, 0⟩ n secondPageOn askSuperpage = some (ans, s') ∧
      Sufficed secondPageOn s' ∧ ¬Follows secondPageOn s' askSuperpage.request askSuperpage.task ans := by
  have hrun : (handle manyNodes noBalancing ⟨0, 0⟩ 2 secondPageOn askSuperpage).map
      (fun p => (p.1, p.2.outOfMemory, p.2.pages)) =
      some (⟨shortFpage, 0x1000, ⟨0, 1, 22, 0, 3, 1⟩⟩, false, []) := by decide +kernel
  obtain ⟨⟨ans, s'⟩, hrun, hans⟩ := Option.map_eq_some_iff.mp hrun
  obtain ⟨rfl, hmem, hpages⟩ : ans = _ ∧ s'.outOfMemory = false ∧ s'.pages = [] := by simpa using hans
  refine ⟨secondPageOn_inv, 2, _, s', hrun, ⟨hmem, hpages⟩, fun F => ?_⟩
  have hcovers : Fpage.Covers ⟨0, 1, 22, 0, 3, 1⟩ 0 := by
    unfold Fpage.Covers
    decide
  obtain ⟨hbefore, -⟩ := F.owned rfl (by decide) (by decide) 0 hcovers
  have hnone : secondPageOn.ownership .ram 0 = none := by decide +kernel
  rw [show Answer.mem ⟨shortFpage, 0x1000, ⟨0, 1, 22, 0, 3, 1⟩⟩ askSuperpage.request = .ram by decide,
    Ownership.Held, hnone] at hbefore
  simp [askSuperpage, sigma0TaskNo] at hbefore

end Pager

end L4env.Sigma0
