import H713.Lib.Bytes

/-!
# Fifo.Code

The shared-memory ring of `cpu_comm_fifo.c`: seven words of control data and the calls on it. Indices and sizes are
`u32`, and so is the product of item size and index.
-/

namespace H713.Fifo

open Bytes

/-- The words `f[0]` to `f[6]`. -/
structure Fifo where
  rd : Nat
  wr : Nat
  peak : Nat
  track : Nat
  cap : Nat
  itemSize : Nat
  base : Nat

def ptr64 (p : Nat) : Nat := if p = 0 then 0 else p + 0xffff800000000000

def itemAddr (f : Fifo) (i : Nat) : Nat := (ptr64 f.base + f.itemSize * i % 2 ^ 32) % 2 ^ 64

def fifoGetCount (f : Fifo) : Int :=
  if f.wr ≥ f.rd then toI32 (f.wr - f.rd) else toI32 ((f.cap + 2 ^ 32 - f.rd + f.wr) % 2 ^ 32)

def fifoIsNearlyFull (f : Fifo) (margin : Int) : Bool :=
  fifoGetCount f ≥ toI32 f.cap - 1 - margin

def fifoGetItemWr (f : Fifo) : Nat :=
  if f.rd = (f.wr + 1) % 2 ^ 32 % f.cap then 0
  else itemAddr f f.wr

def fifoRequestItemWr (f : Fifo) : Nat × Fifo :=
  let nextWr := (f.wr + 1) % 2 ^ 32 % f.cap
  if f.rd = nextWr then (0, f)
  else
    let f := { f with wr := nextWr }
    let count := fifoGetCount f
    -- peak occupancy
    let f := if f.track ≠ 0 ∧ count > toI32 f.peak then { f with peak := ofI32 count } else f
    (itemAddr f nextWr, f)

def fifoGetItemRd (f : Fifo) : Nat :=
  if f.rd = f.wr then 0 else itemAddr f f.rd

def fifoItemRdNext (f : Fifo) : Nat × Fifo :=
  if f.rd = f.wr then (0, f)
  else
    let nextRd := (f.rd + 1) % 2 ^ 32 % f.cap
    let f := { f with rd := nextRd }
    let count := fifoGetCount f
    -- minimum occupancy
    let f := if f.track = 0 ∧ count < toI32 f.peak then { f with peak := ofI32 count } else f
    (if f.wr = nextRd then 0 else itemAddr f nextRd, f)

end H713.Fifo
