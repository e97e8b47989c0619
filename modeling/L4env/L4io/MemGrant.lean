import L4env.L4io.ResRun
import Mathlib.Data.Nat.Log

/-!
# Grants of I/O memory

An announced region is mapped page by page. A request for a part of it is answered with a flexpage from the
start of the region on, whose size is the length of the request rounded up to a power of two
(`callback_announce_mem_region` and `l4_io_request_mem_region_component` in `res.c`).
-/

namespace L4env.L4io

open State (truncPage memSize nLog2)

theorem truncPage_spec (a : Nat) : ∃ c, truncPage a = c * 4096 ∧ c * 4096 ≤ a ∧ a < c * 4096 + 4096 :=
  ⟨a / 4096, rfl, by omega, by omega⟩

theorem truncPage_add {base : Nat} (h : 4096 ∣ base) (a : Nat) : truncPage (base + a % 4096) = base := by
  obtain ⟨c, hc, hle, hlt⟩ := truncPage_spec (base + a % 4096)
  omega

theorem truncPage_mono {x a : Nat} (h : truncPage x ≤ a) : truncPage x ≤ truncPage a := by
  obtain ⟨c, hc, -, -⟩ := truncPage_spec x
  obtain ⟨d, hd, -, hlt⟩ := truncPage_spec a
  omega

/-! ## Announcements -/

/-- A region that was announced, and the mapping behind it: `pages` pages of physical memory from `phys` on,
at `base` in the address space of the server. -/
structure Announced where
  region : IoAres
  phys : Nat
  base : Nat
  pages : Nat

/-- The number of pages that are mapped for `len` bytes. -/
def announcedPages (len : Nat) : Nat := if len / 4096 * 4096 < len then len / 4096 + 1 else len / 4096

/-- The test for an earlier region on the same pages. -/
def reusable (addr len : Nat) (p : Announced) : Bool :=
  truncPage p.region.start ≤ addr ∧
    regionEnd addr len ≤ Word.sub (truncPage (Word.sub (Word.add p.region.end_ 4096) 1)) 1

theorem reusable_start {addr len : Nat} {p : Announced} (h : reusable addr len p = true) :
    truncPage p.region.start ≤ addr := by
  unfold reusable at h
  exact (of_decide_eq_true h).1

/-- `callback_announce_mem_region`, where `reserved` is the address of the area if one is reserved. -/
def announce (as : List Announced) (addr len reserved : Nat) : List Announced :=
  match as.find? (reusable addr len) with
  | some p =>
    as ++ [{ p with region := ⟨addr, regionEnd addr len, truncPage p.region.vaddr + addr % 4096⟩ }]
  | none =>
    as ++ [{ region := ⟨addr, regionEnd addr len, reserved + addr % 4096⟩
             phys := truncPage addr, base := reserved, pages := announcedPages len }]

/-- The announced regions at any time. Areas are on pages, and aligned to the power of two that is not below
their size. -/
inductive Announces : List Announced → Prop where
  | nil : Announces []
  | announce {as : List Announced} {addr len reserved : Nat} : Announces as → 4096 ∣ reserved →
      2 ^ Nat.clog 2 (announcedPages len * 4096) ∣ reserved → Announces (announce as addr len reserved)

/-- The mapping behind a region. It starts in the page of the region or before. -/
structure Announced.Placed (e : Announced) : Prop where
  page : 4096 ∣ e.base
  aligned : 2 ^ Nat.clog 2 (e.pages * 4096) ∣ e.base
  vaddr : truncPage e.region.vaddr = e.base
  phys : 4096 ∣ e.phys
  before : e.phys ≤ truncPage e.region.start

theorem Announces.placed {as : List Announced} (h : Announces as) : ∀ e ∈ as, e.Placed := by
  induction h with
  | nil => nofun
  | @announce as addr len reserved _ hpage haligned ih =>
    rw [L4io.announce]
    cases hp : as.find? (reusable addr len) with
    | none =>
      refine List.forall_mem_append.mpr ⟨ih, List.forall_mem_singleton.mpr ⟨hpage, haligned, ?_, ?_, le_rfl⟩⟩
      · exact truncPage_add hpage addr
      · exact Nat.dvd_mul_left ..
    | some p =>
      have P := ih p (List.mem_of_find?_eq_some hp)
      have hbefore := P.before.trans (truncPage_mono (reusable_start (List.find?_some hp)))
      refine List.forall_mem_append.mpr ⟨ih, List.forall_mem_singleton.mpr ⟨P.page, P.aligned, ?_, P.phys, hbefore⟩⟩
      dsimp only
      rw [P.vaddr]
      exact truncPage_add P.page addr

/-! ## A grant -/

/-- The page `x` of physical memory is at `l` in the address space of the server. -/
def Announced.Maps (e : Announced) (x l : Nat) : Prop := ∃ i < e.pages, x = e.phys + i * 4096 ∧ l = e.base + i * 4096

/-- What a flexpage for `[addr, addr + len)` in the region has to be. -/
structure Granted (e : Announced) (addr len sndBase : Nat) (fpage : Fpage) : Prop where
  aligned : 2 ^ fpage.size ∣ fpage.address
  contains : ∀ x, addr ≤ x → x < addr + len →
    ∃ l, e.Maps (truncPage x) l ∧ fpage.address ≤ l ∧ l < fpage.address + 2 ^ fpage.size
  inside : ∀ l, 4096 ∣ l → fpage.address ≤ l → l < fpage.address + 2 ^ fpage.size →
    ∃ x, e.Maps x l ∧ truncPage e.region.start ≤ x ∧ x ≤ truncPage e.region.end_
  position : e.Maps (truncPage addr) (fpage.address + truncPage sndBase % 2 ^ fpage.size)

/-- The region has a mapping of its own that starts at a multiple of the size of the flexpage. The request is
in the first block of this size, and so is no page behind the region or its mapping. -/
structure GrantFits (e : Announced) (addr len : Nat) : Prop where
  own : e.phys = truncPage e.region.start
  aligned : 2 ^ memSize len ∣ truncPage e.region.start
  reach : addr + len ≤ truncPage e.region.start + 2 ^ memSize len
  region : truncPage e.region.start + 2 ^ memSize len ≤ truncPage e.region.end_ + 4096
  mapped : 2 ^ memSize len ≤ e.pages * 4096

theorem le_memSize (len : Nat) : 12 ≤ memSize len := by
  rw [memSize]
  split
  · rename_i h
    have hlog : 12 ≤ len.log2 := (Nat.le_log2 (by omega)).mpr (by omega)
    rw [nLog2]
    split <;> omega
  · exact le_rfl

theorem granted_iff {e : Announced} {addr len : Nat} (P : e.Placed) (hstart : e.region.start ≤ addr)
    (hend : addr ≤ regionEnd addr len) (haddr : addr < 2 ^ 32) (hlen : len < 2 ^ 32) :
    Granted e addr len addr ⟨truncPage e.region.vaddr, memSize len⟩ ↔ GrantFits e addr len := by
  have hbefore := P.before
  obtain ⟨p, hp⟩ := P.phys
  obtain ⟨q, hq⟩ := P.page
  obtain ⟨m, hm⟩ : ∃ m, 2 ^ memSize len = m * 4096 :=
    ⟨2 ^ (memSize len - 12), by
      have hsum := pow_add 2 (memSize len - 12) 12
      rwa [Nat.sub_add_cancel (le_memSize len)] at hsum⟩
  have hm0 : 0 < m := by
    have := Nat.two_pow_pos (memSize len)
    omega
  have hempty : len = 0 → addr = 0 := by
    rintro rfl
    simp only [regionEnd, Word.sub, Word.add] at hend
    omega
  obtain ⟨a, ha, ha1, ha2⟩ := truncPage_spec addr
  have htrunc : truncPage e.region.start ≤ truncPage addr :=
    truncPage_mono ((Nat.div_mul_le_self ..).trans hstart)
  rw [P.vaddr]
  constructor
  · rintro ⟨-, hcontains, hinside, hposition⟩
    dsimp only at hcontains hinside hposition
    obtain ⟨x, ⟨i, -, rfl, hi⟩, hfirst, -⟩ := hinside e.base ⟨q, hq⟩ le_rfl (by omega)
    obtain ⟨x', ⟨j, hj, rfl, hj'⟩, -, hlast⟩ := hinside (e.base + (m - 1) * 4096)
      (Nat.dvd_add ⟨q, hq⟩ (Nat.dvd_mul_left ..)) (Nat.le_add_right ..) (by omega)
    obtain ⟨n, -, hn, hn'⟩ := hposition
    have hown : e.phys = truncPage e.region.start := by omega
    have hdvd : 2 ^ memSize len ∣ e.phys := by
      have hrest : e.phys = truncPage addr - truncPage addr % 2 ^ memSize len := by omega
      rw [hrest]
      exact Nat.dvd_sub_mod _
    refine ⟨hown, hown ▸ hdvd, ?_, by omega, by omega⟩
    obtain rfl | hlen0 := Nat.eq_zero_or_pos len
    · rw [hempty rfl]
      omega
    · obtain ⟨l, ⟨i', -, hx, hl⟩, -, hlt⟩ := hcontains (addr + len - 1) (by omega) (by omega)
      obtain ⟨c, hc, -, hc2⟩ := truncPage_spec (addr + len - 1)
      omega
  · rintro ⟨hown, hdvd, hreach, hregion, hmapped⟩
    refine ⟨?_, fun x hx hx' => ?_, fun l hl hge hlt => ?_, ?_⟩
    · have hclog : memSize len ≤ Nat.clog 2 (e.pages * 4096) :=
        (Nat.pow_le_pow_iff_right (by decide)).mp (hmapped.trans (Nat.le_pow_clog (by decide) _))
      exact (Nat.pow_dvd_pow 2 hclog).trans P.aligned
    · obtain ⟨c, hc, hc1, hc2⟩ := truncPage_spec x
      exact ⟨e.base + (c - p) * 4096, ⟨c - p, by omega, by omega, rfl⟩, Nat.le_add_right .., by dsimp only; omega⟩
    · obtain ⟨c, rfl⟩ := hl
      dsimp only at hge hlt
      exact ⟨e.phys + (c - q) * 4096, ⟨c - q, by omega, rfl, by omega⟩, by omega, by omega⟩
    · have hlt : truncPage addr - e.phys < 2 ^ memSize len := by
        obtain rfl | hlen0 := Nat.eq_zero_or_pos len
        · have := hempty rfl
          omega
        · omega
      have hmod : truncPage addr % 2 ^ memSize len = truncPage addr - e.phys := by
        obtain ⟨c, hc⟩ := hdvd
        have heq : truncPage addr = (truncPage addr - e.phys) + 2 ^ memSize len * c := by omega
        conv_lhs => rw [heq, Nat.add_mul_mod_self_left, Nat.mod_eq_of_lt hlt]
      dsimp only
      rw [hmod]
      exact ⟨a - p, by omega, by omega, by omega⟩

/-! ## Requests and releases -/

theorem releaseRegion_insertRegion {start len client : Nat} {root root' : List IoRes} (hend : start ≤ regionEnd start len)
    (h : insertRegion ⟨start, regionEnd start len, client⟩ root = .ok root') :
    releaseRegion start len client root' = .ok root := by
  have hnew : ∀ rest, releaseRegion start len client (⟨start, regionEnd start len, client⟩ :: rest) = .ok rest := by
    intro rest
    rw [releaseRegion, if_neg (Nat.not_lt.mpr hend), if_neg (by simp), if_neg (by simp)]
  induction root generalizing root' with
  | nil =>
    obtain rfl := Except.ok.inj h
    exact hnew []
  | cons s root ih =>
    rw [insertRegion] at h
    split_ifs at h with h1 h2
    · obtain rfl := Except.ok.inj h
      exact hnew _
    · cases hi : insertRegion ⟨start, regionEnd start len, client⟩ root with
      | error e =>
        rw [hi] at h
        cases h
      | ok rest =>
        rw [hi] at h
        obtain rfl := Except.ok.inj h
        rw [releaseRegion, if_pos h2, ih hi]
        rfl

/-- The announcement that a request is for. -/
def covers (addr len : Nat) (e : Announced) : Bool :=
  e.region.start ≤ addr ∧ regionEnd addr len ≤ e.region.end_

variable {as : List Announced} {s s' : State} {caller addr len sndBase : Nat} {memory : Bool} {fpage : Fpage}
  {unmapped : State.Unmapped}

theorem requestMem_eq {p : IoAres} {res : List IoRes} (hc : s.findClient caller = true)
    (hp : s.findAres addr len = some p) (hr : requestRegion addr len maxIoMemory s.ioMemRes caller = .ok res) :
    s.requestMem caller addr len true =
      .done { s with ioMemRes := res } (.ok (addr, ⟨truncPage p.vaddr, memSize len⟩)) ⟨[], []⟩ := by
  rw [State.requestMem, if_neg (by simp [hc]), hp, hr]
  rfl

theorem covers_start {e : Announced} (h : covers addr len e = true) : e.region.start ≤ addr := by
  unfold covers at h
  exact (of_decide_eq_true h).1

/-- A granted request. -/
theorem requestMem_ok (h : s.requestMem caller addr len memory = .done s' (.ok (sndBase, fpage)) unmapped) :
    ∃ p res, s.findAres addr len = some p ∧ requestRegion addr len maxIoMemory s.ioMemRes caller = .ok res ∧
      s.findClient caller = true ∧ s' = { s with ioMemRes := res } ∧ sndBase = addr ∧
      fpage = ⟨truncPage p.vaddr, memSize len⟩ := by
  rw [State.requestMem] at h
  by_cases hc : s.findClient caller = false
  · rw [if_pos hc] at h
    cases (State.Outcome.done_inj h).2.1
  rw [if_neg hc] at h
  cases hp : s.findAres addr len with
  | none =>
    rw [hp] at h
    cases (State.Outcome.done_inj h).2.1
  | some p =>
    cases hr : requestRegion addr len maxIoMemory s.ioMemRes caller with
    | error e =>
      rw [hp, hr] at h
      cases (State.Outcome.done_inj h).2.1
    | ok res =>
      rw [hp, hr] at h
      split_ifs at h
      obtain ⟨rfl, hreply, -⟩ := State.Outcome.done_inj h
      obtain ⟨rfl, rfl⟩ := Prod.mk.inj (Except.ok.inj hreply)
      exact ⟨p, res, rfl, rfl, Bool.not_eq_false _ ▸ hc, rfl, rfl, rfl⟩

/-- A release, when announcements came in since the request. -/
theorem releaseMem_ok {p : IoAres} (hp : s.findAres addr len = some p) {t t' : State} {more : List IoAres}
    (ht : t.ioMemAres = s.ioMemAres ++ more) {u : State.Unmapped}
    (h : t.releaseMem caller addr len = .done t' (.ok ()) u) :
    u = ⟨[], [⟨truncPage p.vaddr, memSize len⟩]⟩ := by
  have hfind : t.findAres addr len = some p := by
    rw [State.findAres, ht, List.find?_append, ← State.findAres, hp]
    rfl
  rw [State.releaseMem] at h
  by_cases hc : t.findClient caller = false
  · rw [if_pos hc] at h
    cases (State.Outcome.done_inj h).2.1
  rw [if_neg hc] at h
  cases hr : releaseRegion addr len caller t.ioMemRes with
  | error e =>
    rw [hr] at h
    cases (State.Outcome.done_inj h).2.1
  | ok res =>
    rw [hr, hfind] at h
    exact (State.Outcome.done_inj h).2.2.symm

/-- The release right after the request gives the state before. -/
theorem releaseMem_requested {p : IoAres} {res : List IoRes} (hc : s.findClient caller = true)
    (hp : s.findAres addr len = some p) (hr : requestRegion addr len maxIoMemory s.ioMemRes caller = .ok res) :
    State.releaseMem { s with ioMemRes := res } caller addr len =
      .done s (.ok ()) ⟨[], [⟨truncPage p.vaddr, memSize len⟩]⟩ := by
  simp only [requestRegion] at hr
  split_ifs at hr with h1 h2
  have hc' : State.findClient { s with ioMemRes := res } caller = true := hc
  have hp' : State.findAres { s with ioMemRes := res } addr len = some p := hp
  rw [State.releaseMem, if_neg (by simp [hc']), releaseRegion_insertRegion (Nat.not_lt.mp h1) hr, hp']

theorem find_covers (hs : s.ioMemAres = as.map Announced.region) {p : IoAres} (hp : s.findAres addr len = some p) :
    ∃ e, as.find? (covers addr len) = some e ∧ e.region = p := by
  rw [State.findAres, hs, List.find?_map] at hp
  exact Option.map_eq_some_iff.mp hp

/-- What a request gets is what it asked for if and only if it is in the first block of the region whose size is
that of the flexpage; and a release unmaps what was sent. -/
theorem grants_iff (hA : Announces as) (hs : s.ioMemAres = as.map Announced.region) (haddr : addr < 2 ^ 32)
    (hlen : len < 2 ^ 32)
    (h : s.requestMem caller addr len memory = .done s' (.ok (sndBase, fpage)) unmapped) :
    ∃ e, as.find? (covers addr len) = some e ∧
      (Granted e addr len sndBase fpage ∧ s'.releaseMem caller addr len = .done s (.ok ()) ⟨[], [fpage]⟩ ∧
          (∀ (t t' : State) more client u, t.ioMemAres = s.ioMemAres ++ more →
            t.releaseMem client addr len = .done t' (.ok ()) u → u = ⟨[], [fpage]⟩) ↔
        GrantFits e addr len) := by
  obtain ⟨p, res, hp, hr, hc, rfl, rfl, rfl⟩ := requestMem_ok h
  obtain ⟨e, he, rfl⟩ := find_covers hs hp
  have hend : sndBase ≤ regionEnd sndBase len := by
    simp only [requestRegion] at hr
    split_ifs at hr with h1 h2
    exact Nat.not_lt.mp h1
  refine ⟨e, he, ?_⟩
  rw [← granted_iff (hA.placed e (List.mem_of_find?_eq_some he)) (covers_start (List.find?_some he)) hend haddr
    hlen]
  exact ⟨And.left, fun hgranted => ⟨hgranted, releaseMem_requested hc hp hr,
    fun t t' more client u ht hrel => releaseMem_ok hp ht hrel⟩⟩

/-- Four pages that the task 0 announced, and their mapping. -/
def fourPages : Announced where
  region := ⟨0xfe000000, 0xfe003fff, 0x10000⟩
  phys := 0xfe000000
  base := 0x10000
  pages := 4

theorem fourPages_announces : Announces [fourPages] := by
  have hpages : announcedPages 0x4000 * 4096 = 2 ^ 14 := by decide
  have hlist : announce [] 0xfe000000 0x4000 0x10000 = [fourPages] := by
    have hend : regionEnd 0xfe000000 0x4000 = 0xfe003fff := by decide +kernel
    rw [announce, List.find?_nil, hend]
    rfl
  rw [← hlist]
  exact .announce .nil (by decide) (by rw [hpages, Nat.clog_pow _ _ (by decide)]; decide)

/-- The task 0 is the server, and nothing is requested. -/
def fourPagesState : State := { State.init 0 with ioMemAres := [fourPages.region] }

theorem fourPages_requested {addr : Nat} {r : IoRes} (hcovers : covers addr 0x1000 fourPages = true)
    (hr : requestRegion addr 0x1000 maxIoMemory [] 0 = .ok [r]) :
    fourPagesState.requestMem 0 addr 0x1000 true =
      .done { fourPagesState with ioMemRes := [r] } (.ok (addr, ⟨0x10000, 12⟩)) ⟨[], []⟩ := by
  have hfind : fourPagesState.findAres addr 0x1000 = some fourPages.region :=
    List.find?_cons_of_pos hcovers
  exact requestMem_eq (s := fourPagesState) rfl hfind hr

theorem grants_iff_fourPages : ∃ e, [fourPages].find? (covers 0xfe000000 0x1000) = some e ∧
    (Granted e 0xfe000000 0x1000 0xfe000000 ⟨0x10000, 12⟩ ∧
        State.releaseMem { fourPagesState with ioMemRes := [⟨0xfe000000, 0xfe000fff, 0⟩] } 0 0xfe000000 0x1000 =
          .done fourPagesState (.ok ()) ⟨[], [⟨0x10000, 12⟩]⟩ ∧
        (∀ (t t' : State) more client u, t.ioMemAres = fourPagesState.ioMemAres ++ more →
          t.releaseMem client 0xfe000000 0x1000 = .done t' (.ok ()) u → u = ⟨[], [⟨0x10000, 12⟩]⟩) ↔
      GrantFits e 0xfe000000 0x1000) :=
  grants_iff fourPages_announces rfl (by decide) (by decide)
    (fourPages_requested (by decide +kernel) (by decide +kernel))

/-- A request for the second of four pages gets the first one. -/
theorem not_granted_second : ¬ ∀ (as : List Announced) (s s' : State) (caller addr len sndBase : Nat) (memory : Bool)
    (fpage : Fpage) (unmapped : State.Unmapped), Announces as → s.ioMemAres = as.map Announced.region →
    addr < 2 ^ 32 → len < 2 ^ 32 →
    s.requestMem caller addr len memory = .done s' (.ok (sndBase, fpage)) unmapped →
    ∃ e, as.find? (covers addr len) = some e ∧ Granted e addr len sndBase fpage ∧
      s'.releaseMem caller addr len = .done s (.ok ()) ⟨[], [fpage]⟩ := by
  intro H
  have hcovers : covers 0xfe001000 0x1000 fourPages = true := by decide +kernel
  obtain ⟨e, he, hgranted, -⟩ := H _ _ _ _ _ _ _ _ _ _ fourPages_announces rfl (by decide) (by decide)
    (fourPages_requested (r := ⟨0xfe001000, 0xfe001fff, 0⟩) hcovers (by decide +kernel))
  obtain rfl : fourPages = e := Option.some.inj ((List.find?_cons_of_pos hcovers).symm.trans he)
  have P := fourPages_announces.placed fourPages List.mem_cons_self
  have hfits := (granted_iff P (covers_start hcovers) (by decide +kernel) (by decide) (by decide)).mp hgranted
  exact absurd hfits.reach (by decide +kernel)

end L4env.L4io
