import StreamExpr.LiveInterval

/-! Register allocation by linear scan.
The machine provides as many registers as a program asks for, so nothing is spilled and the aim is
to ask for few. Intervals are taken by their starts. An interval that ends where another starts
gives its register free in time, since an instruction reads its operands before it writes its
result.
-/

namespace StreamExpr

/-- The physical register of each virtual one. -/
structure Allocation where
  physical : Array Nat
  /-- The number of physical registers. -/
  count : Nat
deriving DecidableEq

namespace Allocation

def empty : Allocation :=
  { physical := #[], count := 0 }

/-- The physical register of a virtual one. -/
def physical? (a : Allocation) (register : Nat) : Option Nat :=
  a.physical[register]?

/-- Insert an interval before the first one that does not start earlier. -/
def insertByStart (i : LiveInterval) : List LiveInterval → List LiveInterval
  | [] => [i]
  | j :: rest => if i.start ≤ j.start then i :: j :: rest else j :: insertByStart i rest

/-- Intervals by their starts; those that start together keep their order. -/
def sortByStart (intervals : List LiveInterval) : List LiveInterval :=
  intervals.foldr insertByStart []

/-- The state of a scan: the assignment so far, the intervals that hold a register, oldest first,
and the registers given free, latest first. -/
structure Scan where
  physical : Array Nat
  active : List LiveInterval
  free : List Nat
  count : Nat

namespace Scan

/-- Take back the registers of the intervals that have ended; the register of the oldest one is the
first to be given out again. -/
def expire (s : Scan) (start : Nat) : Scan :=
  let ended := s.active.filter (·.stop ≤ start)
  { s with
    active := s.active.filter (start < ·.stop)
    free := ended.map (fun i => s.physical.getD i.register 0) ++ s.free }

/-- Give an interval the register freed last, or a new one if none is free: all registers below the
number of active intervals are held then. -/
def assign (s : Scan) (i : LiveInterval) : Scan :=
  let (register, free) :=
    match s.free with
    | register :: free => (register, free)
    | [] => (s.active.length, [])
  { physical := s.physical.setIfInBounds i.register register
    active := s.active ++ [i]
    free
    count := max s.count (register + 1) }

/-- Process the next interval. -/
def step (s : Scan) (i : LiveInterval) : Scan :=
  (s.expire i.start).assign i

/-- The scan of some virtual registers before any interval. -/
def start (registers : Nat) : Scan :=
  { physical := Array.replicate registers 0, active := [], free := [], count := 0 }

end Scan

/-- Assign physical registers to intervals, one for each virtual register. -/
def ofIntervals (intervals : List LiveInterval) : Allocation :=
  let s := (sortByStart intervals).foldl Scan.step (Scan.start intervals.length)
  { physical := s.physical, count := s.count }

end Allocation

end StreamExpr
