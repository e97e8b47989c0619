import L4env.Sigma0.MemManRun

/-!
# The pager of sigma0

One message is a request of the sigma0 protocol or a page fault. It is answered with a flexpage of the
map concerned, or with an empty message. Addresses, sizes and the owner are taken from the message as
they are.

The words of a flexpage are given by their bit fields. I/O flexpages have the same layout with four
more fixed bits in the page number; in the map of the ports, a port is a page. The shift by the size
of an I/O flexpage takes the size modulo 32, as an x86 processor does it.
-/

namespace L4env.Sigma0

/-- The fields of `l4_fpage_struct_t`. -/
structure Fpage where
  grant : Nat
  write : Nat
  size : Nat
  zero : Nat
  cache : Nat
  page : Nat
  deriving DecidableEq, Repr

namespace Fpage

def ofWord (w : Nat) : Fpage :=
  ⟨w % 2, w / 2 % 2, w / 4 % 64, w / 256 % 2, w / 512 % 8, w / 4096⟩

/-- `iofp.iopage` -/
def iopage (f : Fpage) : Nat := f.page % 65536

/-- `l4_is_io_page_fault` -/
def isIoPageFault (f : Fpage) : Bool := f.page / 65536 = 0xf ∧ f.zero = 0 ∧ f.cache = 0

/-- `is_iopage`: how the kernel tells I/O flexpages from flexpages of memory. -/
def isIopage (f : Fpage) : Bool := f.isIoPageFault ∧ f.write = 0

end Fpage

/-- `l4_fpage` -/
def l4Fpage (address size write grant : Nat) : Fpage := ⟨grant, write, size % 64, 0, 0, address / 4096⟩

/-- `l4_iofpage` -/
def l4Iofpage (port size grant : Nat) : Fpage := ⟨grant, 0, size % 64, 0, 0, port % 65536 + 0xf0000⟩

namespace Pager

def rootTaskNo : Nat := 4

def logPageSize : Nat := 12

def logSuperpageSize : Nat := 22

/-- `L4_MSGTAG_PAGE_FAULT` -/
def pageFaultLabel : Int := -2

/-- `L4_MSGTAG_SIGMA0` -/
def sigma0Label : Int := -6

/-- `L4_MSGTAG_IO_PAGE_FAULT` -/
def ioPageFaultLabel : Int := -8

/-- A message with its label and the task of its sender. -/
structure Msg where
  d1 : Nat
  d2 : Nat
  label : Int
  task : Nat
  d1_lt : d1 < 4294967296
  d2_lt : d2 < 4294967296
  task_lt : task < 2048

/-- The pages that sigma0 maps to everyone. -/
structure Info where
  l4Info : Nat
  tbufStatus : Nat

/-- `L4_IPC_SHORT_MSG` -/
def shortMsg : Nat := 0

/-- `L4_IPC_SHORT_FPAGE` -/
def shortFpage : Nat := 2

structure Answer where
  msg : Nat
  d1 : Nat
  d2 : Fpage
  deriving DecidableEq, Repr

namespace Answer

/-- `Answer ()` -/
def empty : Answer := ⟨shortMsg, 0, .ofWord 0⟩

def sndBase (a : Answer) (base : Nat) : Answer := { a with d1 := base }

/-- `d2 |= L4_fpage_cached` sets two bits of the field `cache`. -/
def sndFpage (a : Answer) (addr size : Nat) (ro : Bool) : Answer :=
  { a with
    d2 := { l4Fpage addr size (if ro then 0 else 1) 0 with cache := 3 }
    msg := shortFpage }

/-- `(d2 & ~0xe00UL) | L4_fpage_uncached` -/
def noCache (a : Answer) : Answer := { a with d2 := { a.d2 with cache := 1 } }

end Answer

inductive Requests
  | none
  | mapFreePage
  | mapFreeSuperpage
  | mapKip
  | mapTbuf
  | mapRam
  | mapIomem
  | mapIomemCached
  | debugDump
  deriving DecidableEq, Repr

inductive MemoryType
  | ram
  | ioMem
  | ioMemCached
  deriving DecidableEq, Repr

def getRequest (d0 d1 : Nat) (label : Int) : Requests :=
  if label ≠ sigma0Label then .none
  else if d0 = 1 ∧ d1 &&& 0x0f = 0x0f then .mapKip
  else if d0 = 0xfffffffc then .mapFreePage
  else if d0 &&& 0xffffff00 = 0xffffff00 then
    match d0 &&& 0x0f0 with
    | 0xc0 => .debugDump
    | 0xb0 => .mapTbuf
    | 0x60 => .mapRam
    | 0x70 => .mapIomem
    | 0x80 => .mapIomemCached
    | 0xa0 => .mapKip
    | 0x90 =>
      if (Fpage.ofWord d1).size = logPageSize then .mapFreePage
      else if (Fpage.ofWord d1).size = logSuperpageSize then .mapFreeSuperpage
      else .none
    | _ => .none
  else .none

def mapKip (i : Info) : Answer := (Answer.empty.sndFpage i.l4Info logPageSize true).sndBase i.l4Info

def mapTbuf (i : Info) : Answer :=
  if i.tbufStatus ≠ 0 ∧ i.tbufStatus ≠ noAddr then .sndFpage .empty i.tbufStatus logPageSize false
  else .empty

variable {A : Type} (N : NodeAlloc A) (V : Balancing)

/-- The answer of `map_free_page` with the address that `alloc_first` returned. -/
def freePageAnswer (size t addr : Nat) : Answer :=
  if addr ≠ noAddr then
    let a := (Answer.empty.sndBase addr).sndFpage addr size false
    -- the kernel wants the page granted
    if t < rootTaskNo then { a with d2 := { a.d2 with grant := 1 } } else a
  else .empty

def mapFreePage (n : Nat) (s : State A) (superpage : Bool) (t : Nat) : Option (Answer × State A) :=
  let size := if superpage then logSuperpageSize else logPageSize
  (s.allocFirst N V n .ram (2 ^ size) t).map fun p => (freePageAnswer size t p.1, p.2)

def MemoryType.mem : MemoryType → Mem
  | .ram => .ram
  | .ioMem | .ioMemCached => .iomem

/-- The size of the page that `map_mem` sends. -/
def mapSize (fp : Fpage) : Nat := if fp.size ≥ logSuperpageSize then logSuperpageSize else logPageSize

/-- The answer of `map_mem` with the address that `alloc` returned. -/
def memAnswer (fn : MemoryType) (size addr : Nat) : Answer :=
  if addr = noAddr then .empty
  else
    let an := (Answer.empty.sndBase addr).sndFpage addr size false
    if fn = .ioMem then an.noCache else an

def mapMem (n : Nat) (s : State A) (fp : Fpage) (fn : MemoryType) (t : Nat) :
    Option (Answer × State A) :=
  (s.alloc N V n fn.mem (.bs (fp.page * 4096) (2 ^ mapSize fp) t)).map fun p =>
    (memAnswer fn (mapSize fp) p.1, p.2)

/-- The port of an I/O page fault, and the size of its flexpage, in the map of the ports. -/
def portOf (d1 : Fpage) : Nat := d1.iopage * 4096

def portSize (d1 : Fpage) : Nat := d1.size + 12

def ioAnswer (d1 : Fpage) (i : Nat) : Answer :=
  if i = portOf d1 then ⟨shortFpage, 0, l4Iofpage (portOf d1 / 4096) (portSize d1 - 12) 0⟩ else .empty

/-- `handle_io_page_fault` for the I/O page fault `d1`. -/
def handleIoPageFault (n : Nat) (s : State A) (d1 : Fpage) (owner : Nat) : Option (Answer × State A) :=
  (s.alloc N V n .ioPorts (.bs (portOf d1) (2 ^ (portSize d1 % 32)) owner)).map fun p =>
    (ioAnswer d1 p.1, p.2)

/-- `d1 & ~2UL` -/
def faultWord (d1 : Nat) : Fpage := { Fpage.ofWord d1 with write := 0 }

/-- `d1 & ~3UL` -/
def pfa (d1 : Nat) : Nat := d1 - d1 % 4

def faultAnswer (d1 addr : Nat) : Answer :=
  if addr ≠ noAddr then (Answer.empty.sndBase addr).sndFpage (pfa d1) logPageSize false else .empty

def handlePageFault (n : Nat) (s : State A) (d1 t : Nat) (label : Int) : Option (Answer × State A) :=
  if label ≠ pageFaultLabel ∧ label ≠ ioPageFaultLabel then some (.empty, s)
  else if (faultWord d1).isIoPageFault then handleIoPageFault N V n s (faultWord d1) t
  else
    (s.alloc N V n .ram (.bs (truncPage (pfa d1)) (2 ^ logPageSize) t)).map fun p =>
      (faultAnswer d1 p.1, p.2)

/-- One round of `pager`: the answer to a message. -/
def handle (i : Info) (n : Nat) (s : State A) (x : Msg) : Option (Answer × State A) :=
  match getRequest x.d1 x.d2 x.label with
  | .debugDump => some (.empty, s)
  | .mapKip => some (mapKip i, s)
  | .mapTbuf => some (mapTbuf i, s)
  | .mapFreePage => mapFreePage N V n s false x.task
  | .mapFreeSuperpage => mapFreePage N V n s true x.task
  | .mapRam => mapMem N V n s (.ofWord x.d2) .ram x.task
  | .mapIomem => mapMem N V n s (.ofWord x.d2) .ioMem x.task
  | .mapIomemCached => mapMem N V n s (.ofWord x.d2) .ioMemCached x.task
  | .none => handlePageFault N V n s x.d1 x.task x.label

end Pager

end L4env.Sigma0
