import L4env.Roottask.MemmapRun

/-!
# Requests to the pager of the roottask

Tasks ask the pager for pages of RAM (`handle_extended_sigma0`) and for I/O ports (`handle_io`). A
request for RAM is checked page by page first, then the pages are allocated one after the other. The
ports of a request are allocated one after the other, without a check before.

A shift by the size of a flexpage takes the size modulo 32, as an x86 processor does it.
-/

namespace L4env.Roottask

/-- What a request comes to: the reply to the task, the panic of the roottask, or an access outside of
an array. -/
inductive Answer
  | denied
  | granted (base size : Nat)
  | panic
  | outside
deriving DecidableEq

/-- `1U << size` -/
def flexpage (size : Nat) : Nat := 2 ^ (size % 32)

namespace Memmap

/-! ## RAM -/

/-- The request is for superpages. -/
def isSuper (size : Nat) : Bool := decide (22 ≤ size)

/-- `psize` -/
def pageSize (size : Nat) : Nat := if isSuper size then L4_SUPERPAGESIZE else L4_PAGESIZE

/-- `(1U << fp.fp.size) >> shift` -/
def pageCount (size : Nat) : Nat := flexpage size / pageSize size

/-- The addresses `a` of the loops. -/
def pageAddrs (addr size : Nat) : List Nat :=
  (List.range (pageCount size)).map fun k => (addr + k * pageSize size) % 2 ^ 32

def ownerOf (m : Memmap) (size a : Nat) : Owner :=
  if isSuper size then m.memmapOwnerSuperpage a else m.memmapOwnerPage a

def allocOf (m : Memmap) (size a : Nat) (t : Owner) : Bool × Memmap :=
  if isSuper size then m.memmapAllocSuperpage a t else m.memmapAllocPage a t

/-- The first loop: every page is free or the task's, and alone within its quota. -/
def firstPass (m : Memmap) (t : Owner) (addr size : Nat) : Bool :=
  (pageAddrs addr size).all fun a =>
    decide (m.ownerOf size a = O_FREE ∨ m.ownerOf size a = t) && m.quotaCheckMem t a (pageSize size)

/-- The second loop, which ends in a panic where a page cannot be allocated. -/
def secondPass (m : Memmap) (t : Owner) (size : Nat) : List Nat → Option Memmap
  | [] => some m
  | a :: l =>
    let m := (m.quotaFreeMem t a (pageSize size)).2
    let r := m.allocOf size a t
    if r.1 then r.2.secondPass t size l else none

/-- `handle_extended_sigma0` for `SIGMA0_REQ_ID_FPAGE_RAM` -/
def fpageRam (m : Memmap) (t : Owner) (addr size : Nat) : Answer × Memmap :=
  if !m.firstPass t addr size then (.denied, m)
  else
    match m.secondPass t size (pageAddrs addr size) with
    | none => (.panic, m)
    | some m => (.granted addr size, m)

end Memmap

/-! ## I/O ports -/

abbrev RMGR_IO_MAX : Nat := 0x10000
abbrev L4_WHOLE_IOADDRESS_SPACE : Nat := 16

/-- `__iomap` -/
abbrev Iomap := Nat → Owner

namespace Iomap

def iomapAllocPort (io : Iomap) (port : Nat) (o : Owner) : Bool × Iomap :=
  if io port = o then (true, io)
  else if io port ≠ O_FREE then (false, io)
  else (true, Function.update io port o)

/-- The loop of `handle_io` over the ports from `port` on. -/
def allocPorts (io : Iomap) (t : Owner) (port : Nat) : Nat → Answer × Iomap
  | 0 => (.granted port 0, io)
  | n + 1 =>
    if RMGR_IO_MAX ≤ port then (.outside, io)
    else
      let r := io.iomapAllocPort port t
      if !r.1 then (.denied, r.2) else r.2.allocPorts t (port + 1) n

/-- `handle_io`. The whole I/O space stands for the right to use `cli` and `sti`. -/
def handleIo (io : Iomap) (haveIo allowCli : Bool) (t : Owner) (port size : Nat) : Answer × Iomap :=
  if !haveIo then (.denied, io)
  else if port = 0 ∧ size = L4_WHOLE_IOADDRESS_SPACE then
    if !allowCli then (.denied, io) else (.granted port size, io)
  else
    match io.allocPorts t port (flexpage size) with
    | (.granted _ _, io) => (.granted port size, io)
    | r => r

end Iomap

end L4env.Roottask
