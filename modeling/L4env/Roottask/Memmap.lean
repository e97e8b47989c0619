import Mathlib.Data.Fintype.Basic
import Mathlib.Tactic

/-!
# Memory map and quotas of the roottask

The roottask hands out the physical memory. Every page has an entry in the page map, and every
superpage of 4 MiB an entry of its own (`memmap.c`). A superpage is free, owned as a whole, or
reserved; only in the last case the entries of its pages are in force. Tasks are charged for memory
on their quota (`quota.c`).

The model is that of a 32-bit PC, where `ram_base` is 0. The map of the pages ends at `memHigh`.
-/

namespace L4env.Roottask

/-- The owner of a page: a task number below 256, or one of the marks below. -/
abbrev Owner := Fin 256

def O_FREE : Owner := 0
def O_RESERVED : Owner := 1
def O_DEBUG : Owner := 2
def O_USER : Owner := 3

abbrev L4_PAGESIZE : Nat := 0x1000
abbrev L4_SUPERPAGESIZE : Nat := 0x400000
abbrev SUPERPAGE_MAX : Nat := 1024

/-- The number of pages in a superpage. -/
abbrev pagesPerSuper : Nat := 1024

/-! ## Quotas -/

/-- A quota on addresses or on task numbers. -/
structure RangeQuota where
  low : Nat
  high : Nat
  max : Nat
  current : Nat
deriving DecidableEq

/-- `__quota_check_addr` and its siblings for smaller numbers. The sums are those of a 32-bit
machine. -/
def quotaCheck (q : RangeQuota) (addr amount : Nat) : Bool :=
  decide (amount ≤ q.max ∧ q.current ≤ q.max - amount ∧ q.low ≤ addr ∧
    (addr + amount + (2 ^ 32 - 1)) % 2 ^ 32 ≤ q.high)

/-- `__quota_free_addr` and its siblings. The quota is passed by value, so that nothing is left of
the subtraction but its result. -/
def quotaFree (q : RangeQuota) (amount : Nat) : Nat := (q.current + 2 ^ 32 - amount % 2 ^ 32) % 2 ^ 32

def RangeQuota.charge (q : RangeQuota) (amount : Nat) : RangeQuota :=
  { q with current := (q.current + amount) % 2 ^ 32 }

structure Quota where
  mem : RangeQuota
  himem : RangeQuota
  task : RangeQuota
  small : RangeQuota
deriving DecidableEq

/-! ## The memory map -/

structure Superpage where
  freePages : Nat
  owner : Owner
deriving DecidableEq

structure Memmap where
  /-- `__memmap` -/
  pages : Nat → Owner
  /-- `__memmap4mb` -/
  supers : Nat → Superpage
  memHigh : Nat
  quota : Owner → Quota

namespace Memmap

def quotaCheckMem (m : Memmap) (t : Owner) (addr amount : Nat) : Bool :=
  if addr < m.memHigh then quotaCheck (m.quota t).mem addr amount
  else quotaCheck (m.quota t).himem addr amount

def setQuota (m : Memmap) (t : Owner) (q : Quota) : Memmap :=
  { m with quota := Function.update m.quota t q }

def quotaAllocMem (m : Memmap) (t : Owner) (addr amount : Nat) : Bool × Memmap :=
  let q := m.quota t
  if addr < m.memHigh then
    if quotaCheck q.mem addr amount then (true, m.setQuota t { q with mem := q.mem.charge amount })
    else (false, m)
  else
    if quotaCheck q.himem addr amount then
      (true, m.setQuota t { q with himem := q.himem.charge amount })
    else (false, m)

def quotaFreeMem (m : Memmap) (t : Owner) (addr amount : Nat) : Nat × Memmap :=
  let q := m.quota t
  if addr < m.memHigh then (quotaFree q.mem amount, m) else (quotaFree q.himem amount, m)

def quotaAddMem (m : Memmap) (t : Owner) (amount : Nat) : Memmap :=
  let q := m.quota t
  m.setQuota t { q with mem := q.mem.charge amount }

/-- `--free_pages` and `++free_pages` on 16 bits -/
def decr (n : Nat) : Nat := (n + (2 ^ 16 - 1)) % 2 ^ 16

def incr (n : Nat) : Nat := (n + 1) % 2 ^ 16

def setPageOwner (m : Memmap) (p : Nat) (o : Owner) : Memmap :=
  { m with pages := Function.update m.pages p o }

def setSuper (m : Memmap) (i : Nat) (s : Superpage) : Memmap :=
  { m with supers := Function.update m.supers i s }

/-- `memmap_init` -/
def memmapInit (m : Memmap) : Memmap :=
  { m with
    pages := fun _ => O_RESERVED
    supers := fun _ => ⟨0, O_RESERVED⟩ }

/-- `memmap_set_range`: `memset` on the page map, past the superpages. -/
def memmapSetRange (m : Memmap) (start stop : Nat) (o : Owner) : Memmap :=
  { m with pages := fun p =>
      if start / L4_PAGESIZE ≤ p ∧ p < start / L4_PAGESIZE +
        (stop - (start - start % L4_PAGESIZE) + (L4_PAGESIZE - 1)) / L4_PAGESIZE then o
      else m.pages p }

def memmapSetPage (m : Memmap) (addr : Nat) (o : Owner) : Bool × Memmap :=
  let p := addr / L4_PAGESIZE
  let i := addr / L4_SUPERPAGESIZE
  let s := m.supers i
  if SUPERPAGE_MAX ≤ i then (false, m)
  else if m.memHigh ≤ addr then (false, m)
  else if m.pages p = o then (true, m)
  else if s.owner ≠ O_FREE ∧ s.owner ≠ O_RESERVED then (false, m)
  else (true, (m.setSuper i ⟨decr s.freePages, O_RESERVED⟩).setPageOwner p o)

def memmapFreePage (m : Memmap) (addr : Nat) (o : Owner) : Bool × Memmap :=
  let p := addr / L4_PAGESIZE
  let i := addr / L4_SUPERPAGESIZE
  let s := m.supers i
  if SUPERPAGE_MAX ≤ i then (false, m)
  else if s.owner = O_FREE then (true, m)
  else if s.owner ≠ O_RESERVED then (false, m)
  else if m.memHigh ≤ addr then (false, m)
  else if m.pages p = O_FREE then (true, m)
  else if m.pages p ≠ o then (false, m)
  else
    let m := if O_USER ≤ o then (m.quotaFreeMem o addr L4_PAGESIZE).2 else m
    let n := incr s.freePages
    let owner := if n = pagesPerSuper then O_FREE else if n = 1 then O_RESERVED else s.owner
    (true, (m.setPageOwner p O_FREE).setSuper i ⟨n, owner⟩)

/-- All pages of a superpage have the owner. -/
def wholeSuper (m : Memmap) (i : Nat) (o : Owner) : Bool :=
  (List.range pagesPerSuper).all fun j => m.pages (i * pagesPerSuper + j) = o

def memmapAllocPage (m : Memmap) (addr : Nat) (o : Owner) : Bool × Memmap :=
  let p := addr / L4_PAGESIZE
  let i := addr / L4_SUPERPAGESIZE
  let s := m.supers i
  if SUPERPAGE_MAX ≤ i then (false, m)
  else if m.memHigh ≤ addr then (false, m)
  else if m.pages p = o ∨ s.owner = o then (true, m)
  else if m.pages p ≠ O_FREE then (false, m)
  else if s.owner ≠ O_FREE ∧ s.owner ≠ O_RESERVED then (false, m)
  else
    -- the superpage is marked as reserved before the quota is asked
    let m := m.setSuper i { s with owner := O_RESERVED }
    let (ok, m) := if O_USER ≤ o then m.quotaAllocMem o addr L4_PAGESIZE else (true, m)
    if !ok then (false, m)
    else
      let n := decr s.freePages
      let m := (m.setSuper i ⟨n, O_RESERVED⟩).setPageOwner p o
      if n = 0 ∧ m.wholeSuper i o then (true, m.setSuper i ⟨n, o⟩) else (true, m)

def memmapOwnerPage (m : Memmap) (addr : Nat) : Owner :=
  let s := m.supers (addr / L4_SUPERPAGESIZE)
  if SUPERPAGE_MAX ≤ addr / L4_SUPERPAGESIZE then O_RESERVED
  else if m.memHigh ≤ addr then O_RESERVED
  else if s.owner = O_RESERVED then m.pages (addr / L4_PAGESIZE) else s.owner

def memmapFreeSuperpage (m : Memmap) (addr : Nat) (o : Owner) : Bool × Memmap :=
  let i := addr / L4_SUPERPAGESIZE
  let s := m.supers i
  if SUPERPAGE_MAX ≤ i then (false, m)
  else if s.owner = O_FREE then (true, m)
  else if s.owner ≠ o then (false, m)
  else
    let m := if O_USER ≤ o then (m.quotaFreeMem o addr L4_SUPERPAGESIZE).2 else m
    -- the entries of the pages stay as they are
    (true, m.setSuper i ⟨pagesPerSuper, O_FREE⟩)

/-- All pages of a superpage are free or have the owner. -/
def exclusive (m : Memmap) (i : Nat) (o : Owner) : Bool :=
  (List.range pagesPerSuper).all fun j =>
    m.pages (i * pagesPerSuper + j) = O_FREE ∨ m.pages (i * pagesPerSuper + j) = o

/-- The bytes of a superpage that belong to the owner page by page. -/
def alreadyHave (m : Memmap) (i : Nat) (o : Owner) : Nat :=
  (List.range pagesPerSuper).countP (fun j => m.pages (i * pagesPerSuper + j) = o) * L4_PAGESIZE

/-- `memset (sm, O_FREE, L4_SUPERPAGESIZE/L4_PAGESIZE)` -/
def clearPages (m : Memmap) (i : Nat) : Memmap :=
  { m with pages := fun p => if p / pagesPerSuper = i then O_FREE else m.pages p }

def memmapAllocSuperpage (m : Memmap) (addr : Nat) (o : Owner) : Bool × Memmap :=
  let i := addr / L4_SUPERPAGESIZE
  let s := m.supers i
  -- `address & L4_SUPERPAGEMASK`
  let base := addr - addr % L4_SUPERPAGESIZE
  if SUPERPAGE_MAX ≤ i then (false, m)
  else if s.owner = o then (true, m)
  else if s.owner ≠ O_FREE then
    if s.owner ≠ O_RESERVED then (false, m)
    else if m.memHigh ≤ base then (false, m)
    else if !m.exclusive i o then (false, m)
    else
      let have_ := m.alreadyHave i o
      if O_USER ≤ o then
        let m := if have_ ≠ 0 then (m.quotaFreeMem o base have_).2 else m
        let (ok, m) := m.quotaAllocMem o base L4_SUPERPAGESIZE
        if !ok then (false, if have_ ≠ 0 then m.quotaAddMem o have_ else m)
        else (true, (m.clearPages i).setSuper i { s with owner := o })
      else (true, (m.clearPages i).setSuper i { s with owner := o })
  else
    let (ok, m) := if O_USER ≤ o then m.quotaAllocMem o base L4_SUPERPAGESIZE else (true, m)
    if !ok then (false, m) else (true, m.setSuper i { s with owner := o })

def memmapOwnerSuperpage (m : Memmap) (addr : Nat) : Owner :=
  if SUPERPAGE_MAX ≤ addr / L4_SUPERPAGESIZE then O_RESERVED
  else (m.supers (addr / L4_SUPERPAGESIZE)).owner

def memmapNrfreeSuperpage (m : Memmap) (addr : Nat) : Nat :=
  let s := m.supers (addr / L4_SUPERPAGESIZE)
  if SUPERPAGE_MAX ≤ addr / L4_SUPERPAGESIZE then 0
  else if s.owner = O_FREE ∨ s.owner = O_RESERVED then s.freePages else 0

/-- `l4_round_superpage (mem_high) >> L4_SUPERPAGESHIFT` -/
@[irreducible] def firstHigh (m : Memmap) : Nat :=
  (m.memHigh + (L4_SUPERPAGESIZE - 1)) / L4_SUPERPAGESIZE

/-- `free_high_ram` -/
def freeHighRam (m : Memmap) : Memmap :=
  (List.range' m.firstHigh (SUPERPAGE_MAX - m.firstHigh)).foldl
    (fun m i => (m.memmapFreeSuperpage (i * L4_SUPERPAGESIZE) O_RESERVED).2) m

end Memmap

end L4env.Roottask
