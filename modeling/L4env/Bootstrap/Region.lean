import Mathlib.Tactic

/-!
# Regions of the bootstrapper

A region is a range of memory with the address of its last byte (`bootstrap/server/src/region.h`).
Addresses are 64-bit words.
-/

namespace L4env.Bootstrap

inductive RegionType where
  | noMem
  | kernel
  | sigma0
  | boot
  | root
  | arch
  | ram
  deriving DecidableEq

/-- The name is a pointer, null if there is none. -/
structure Region where
  beginAddr : Nat
  endAddr : Nat
  name : Nat
  type : RegionType
  subType : Nat
  deriving DecidableEq

namespace Region

/-- The constructor with its defaults. -/
def mk' (beginAddr endAddr : Nat) : Region :=
  { beginAddr, endAddr, name := 0, type := .noMem, subType := 0 }

/-- `operator <` -/
def before (r o : Region) : Bool := r.endAddr < o.beginAddr

def overlaps (r o : Region) : Bool := !r.before o && !o.before r

end Region

/-- `Region_list::find` -/
def findRegion (regions : List Region) (o : Region) : Option Region := regions.find? fun c => c.overlaps o

end L4env.Bootstrap
