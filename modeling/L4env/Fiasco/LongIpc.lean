import Mathlib.Tactic

/-!
# Long IPC of the Fiasco kernel

`do_send_long` copies message words and strings from the sender to the receiver and maps flexpages on the
way. It accesses the sender's memory in place, and the receiver's through two windows of two superpages
each, unless the partners share one address space (`thread-msg.cpp`, `thread-msg-ia32-amd64.cpp`).

The model gives the accesses to user memory in their order. What the code reads and what other code
answers is an input: another thread may change the memory at any time, and no access is made twice with
the same purpose.
-/

namespace L4env.Fiasco

/-! ## Memory layout -/

/-- `Mem_layout::User_max` -/
def userMax : Nat := 0xc0000000

/-- `Config::SUPERPAGE_SIZE` -/
def superpageSize : Nat := 0x400000

/-- An address under `Config::SUPERPAGE_MASK`. -/
def superpageBase (a : Nat) : Nat := a / superpageSize * superpageSize

/-- `Kmem::ipc_window` of window 0 or 1. -/
def ipcWindow (win : Bool) : Nat := if win then 0xee800000 else 0xee000000

/-- The IPC windows: two slots of a page directory each. -/
def ipcWindowSize : Nat := 2 * superpageSize

def invalidIpcBuffer (a : Nat) : Bool := decide (userMax ≤ superpageBase a + superpageSize - 1)

/-- `remote_fault_addr` for the contents of the two windows. -/
def remoteFaultAddr (vmWindow₀ vmWindow₁ pfa : Nat) : Nat :=
  if pfa < ipcWindow true then pfa - ipcWindow false + vmWindow₀
  else pfa - ipcWindow true + vmWindow₁

/-! ## Accesses -/

/-- An access to memory of the sender, of a receiver in the same space, or of a receiver through the
window that was set up for it, with the contents of both windows. -/
inductive Access where
  | snd (addr size : Nat)
  | rcv (addr size : Nat)
  | window (win : Bool) (vmWindow₀ vmWindow₁ addr size : Nat)
  deriving DecidableEq

/-- All bytes are in user memory, and those behind a window are in the window. -/
def Access.Safe : Access → Prop
  | .snd addr size => ∀ k < size, addr + k < userMax
  | .rcv addr size => ∀ k < size, addr + k < userMax
  | .window win vmWindow₀ vmWindow₁ addr size => ∀ k < size,
    ipcWindow win ≤ addr + k ∧ addr + k < ipcWindow win + ipcWindowSize ∧
      remoteFaultAddr vmWindow₀ vmWindow₁ (addr + k) < userMax

/-! ## Messages -/

/-- `L4_msgdope` -/
def dopeMwords (dope : BitVec 32) : Nat := ((dope &&& 0xffffe000) >>> 13).toNat

def dopeStrings (dope : BitVec 32) : Nat := ((dope &&& 0x1f00) >>> 8).toNat

/-- What is read of the descriptors of one string, and whether the window for it could be set up with the
partner still in the IPC. -/
structure StringRead where
  sndStr : BitVec 32
  sndSize : BitVec 32
  rcvStr : BitVec 32
  rcvSize : BitVec 32
  window : Bool

/-- A flexpage in the message: not valid, mapped, or not mapped. -/
inductive FpageRead where
  | invalid
  | mapped
  | failed
  deriving DecidableEq

/-- The descriptors of both partners, what is read from their memory and what `setup_ipc_window`,
`in_long_ipc` and `fpage_map` answer. -/
structure LongIpc where
  sndDesc : BitVec 32
  rcvDesc : BitVec 32
  sameSpace : Bool
  /-- Window 0 could be set up with the partner still in the IPC. -/
  window : Bool
  /-- The receive flexpage is valid. -/
  rcvFpage : Bool
  /-- The flexpage in the message registers. -/
  regFpage : FpageRead
  sndDope : BitVec 32
  sndSizeDope : BitVec 32
  /-- `size_dope` of the receiver, which is read for the words and again for the strings -/
  rcvWordsDope : BitVec 32
  rcvStringsDope : BitVec 32
  /-- The flexpage in the message words `n` and `n + 1`. -/
  fpage : Nat → FpageRead
  string : Nat → StringRead

namespace LongIpc

/-- `snd_desc().msg()` -/
def sndMsg (i : LongIpc) : Nat := (i.sndDesc &&& 0xfffffffc).toNat

def map (i : LongIpc) : Bool := i.sndDesc &&& 2 ≠ 0

/-- `_target_desc.msg()` -/
def rcvMsg (i : LongIpc) : Nat := (i.rcvDesc &&& 0xfffffffc).toNat

def rmap (i : LongIpc) : Bool := i.rcvDesc &&& 2 ≠ 0

/-- `rcv_descr` is set. -/
def rcvLong (i : LongIpc) : Bool := i.rcvMsg ≠ 0 && !i.rmap && !invalidIpcBuffer i.rcvMsg

def sndWords (i : LongIpc) : Nat := dopeMwords i.sndDope

def rcvWords (i : LongIpc) : Nat := dopeMwords i.rcvWordsDope

def minWords (i : LongIpc) : Nat := if i.sndWords > i.rcvWords then i.rcvWords else i.sndWords

/-- An access at an offset in the receiver's message buffer. -/
def rcvMessage (i : LongIpc) (vmWindow₁ offset size : Nat) : Access :=
  if i.sameSpace then .rcv (i.rcvMsg + offset) size
  else .window false (superpageBase i.rcvMsg) vmWindow₁
    (ipcWindow false + i.rcvMsg % superpageSize + offset) size

/-- The windows were reset at the end of the last long IPC. -/
def noWindow : Nat := 2 ^ 32 - 1

/-! ### Words and flexpages -/

/-- The flexpages in the message words from `n` on, `s` and `r` words from the end of the two buffers: the
accesses, and whether all could be mapped. -/
def fpageLoop (i : LongIpc) (n s r : Nat) : List Access × Bool :=
  if 4 ≤ s ∧ 4 ≤ r then
    match i.fpage n with
    | .invalid => ([.snd (i.sndMsg + 4 * (n + 1 + 3)) 4], true)
    | .failed => ([.snd (i.sndMsg + 4 * (n + 1 + 3)) 4, .snd (i.sndMsg + 4 * (n + 3)) 4], false)
    | .mapped =>
      let (l, ok) := i.fpageLoop (n + 2) (s - 2) (r - 2)
      (.snd (i.sndMsg + 4 * (n + 1 + 3)) 4 :: .snd (i.sndMsg + 4 * (n + 3)) 4 :: l, ok)
  else ([], true)
termination_by s

/-- Flexpages are sent in the message words. -/
def wordFpages (i : LongIpc) : Bool := i.map && decide (i.regFpage = .mapped)

def fpages (i : LongIpc) : List Access × Bool :=
  if i.wordFpages then i.fpageLoop 2 i.sndWords i.rcvWords else ([], true)

/-- The words behind those in registers are copied. -/
def copyWords (i : LongIpc) : List Access :=
  if i.minWords > 2 then
    [.snd (i.sndMsg + (12 + 8)) (4 * (i.minWords - 2)),
      i.rcvMessage noWindow (12 + 8) (4 * (i.minWords - 2))]
  else []

/-! ### Strings -/

def sndStrdope (i : LongIpc) (j : Nat) : Nat := i.sndMsg + (12 + 4 * dopeMwords i.sndSizeDope) + 16 * j

/-- The offset in the receiver's message buffer. -/
def rcvStrdope (i : LongIpc) (j : Nat) : Nat := 12 + 4 * i.rcvWords + 16 * j

/-- Sizes are limited to a superpage. -/
def sizeLimit (n : BitVec 32) : Nat := if n.toNat > superpageSize then superpageSize else n.toNat

end LongIpc

namespace StringRead

def fromSize (d : StringRead) : Nat := LongIpc.sizeLimit d.sndSize

def toSize (d : StringRead) : Nat := LongIpc.sizeLimit d.rcvSize

def minSize (d : StringRead) : Nat := if d.fromSize > d.toSize then d.toSize else d.fromSize

def invalid (d : StringRead) : Bool :=
  invalidIpcBuffer d.sndStr.toNat || invalidIpcBuffer d.rcvStr.toNat

end StringRead

namespace LongIpc

/-- The copy of one string: the accesses and the contents of window 1 after it. There is no result where
the window cannot be set up or the partner left the IPC. -/
def copyString (i : LongIpc) (d : StringRead) (vmWindow₁ : Nat) : Option (List Access × Nat) :=
  if d.minSize > 0 then
    if i.sameSpace then
      some ([.snd d.sndStr.toNat d.minSize, .rcv d.rcvStr.toNat d.minSize], vmWindow₁)
    else if d.window then
      -- `setup_ipc_window` leaves the window if it has the right contents
      let vmWindow₁ := superpageBase d.rcvStr.toNat
      some ([.snd d.sndStr.toNat d.minSize, .window true (superpageBase i.rcvMsg) vmWindow₁
        (ipcWindow true + d.rcvStr.toNat % superpageSize) d.minSize], vmWindow₁)
    else none
  else some ([], vmWindow₁)

/-- The strings from `j` on, at most `n`. -/
def stringLoop (i : LongIpc) : Nat → Nat → Nat → List Access
  | 0, _, _ => []
  | n + 1, j, vmWindow₁ =>
    let d := i.string j
    [.snd (i.sndStrdope j + 4) 4, .snd (i.sndStrdope j) 4,
      i.rcvMessage vmWindow₁ (i.rcvStrdope j + 12) 4, i.rcvMessage vmWindow₁ (i.rcvStrdope j + 8) 4] ++
    if d.invalid then []
    else
      match i.copyString d vmWindow₁ with
      | none => []
      | some (l, vmWindow₁) =>
        l ++ i.rcvMessage vmWindow₁ (i.rcvStrdope j) 4 ::
          if d.fromSize > d.toSize then [] else i.stringLoop n (j + 1) vmWindow₁

def numStrings (i : LongIpc) : Nat := min (dopeStrings i.sndDope) (dopeStrings i.rcvStringsDope)

/-! ### The function -/

/-- From the transfer of the message words on. -/
def sendBuffer (i : LongIpc) : List Access :=
  .snd (i.sndMsg + 8) 4 ::
  if !i.rcvLong then []
  else
    i.rcvMessage noWindow 4 4 :: (i.copyWords ++ (i.fpages.1 ++
      if !i.fpages.2 ∨ i.sndWords > i.rcvWords then []
      else .snd (i.sndMsg + 4) 4 :: i.rcvMessage noWindow 4 4 :: i.stringLoop i.numStrings 0 noWindow))

/-- `do_send_long`, up to the first page fault that is not handled. -/
def doSendLong (i : LongIpc) : List Access :=
  if invalidIpcBuffer i.sndMsg then []
  else if i.rcvLong && !i.sameSpace && !i.window then []
  else
    -- the receive flexpage is in the receiver's message buffer or in its descriptor
    (if i.rcvLong then [i.rcvMessage noWindow 0 4] else []) ++
    if i.map && !i.rcvFpage then []
    else if i.sndMsg = 0 then []
    else if i.map && decide (i.regFpage = .failed) then []
    else i.sendBuffer

end LongIpc

end L4env.Fiasco
