import EnhancedXv6.Foundation.Circle

/-! `malloc` and `free` of `umalloc.c`. Headers are known by their byte addresses and
`p + n` of the source is `n` units of 16 bytes further. A loop of the source is given
a number of rounds; without enough of them it has no result. -/

namespace EnhancedXv6.Umalloc

open Foundation

def unit : Nat := 16

/-- The headers, `freep`, and the calls of `sbrk` so far with what they returned. The
field `s.size` is of type `uint`. -/
structure Heap where
  ptr : Nat → Nat
  size : Nat → Nat
  freep : Nat
  calls : List (Int × Option Nat)

/-- What `sbrk` returns, which may depend on all that has happened before; `none` is -1. -/
abbrev Sbrk := List (Int × Option Nat) → Int → Option Nat

def Heap.fin (h : Heap) (p : Nat) : Nat := p + unit * h.size p

def Heap.setPtr (h : Heap) (p next : Nat) : Heap :=
  { h with ptr := Function.update h.ptr p next }

def Heap.setSize (h : Heap) (p size : Nat) : Heap :=
  { h with size := Function.update h.size p size }

/-- The conditions that end the loop of `free` at `p`. -/
def Heap.brackets (h : Heap) (bp p : Nat) : Bool :=
  (p < bp && bp < h.ptr p) || (h.ptr p ≤ p && (p < bp || bp < h.ptr p))

/-- `free` joins the block with the free block above it. -/
def Heap.joinUpper (h : Heap) (bp p : Nat) : Heap :=
  if h.fin bp = h.ptr p then
    (h.setSize bp ((h.size bp + h.size (h.ptr p)) % 2 ^ 32)).setPtr bp (h.ptr (h.ptr p))
  else h.setPtr bp (h.ptr p)

/-- `free` joins the block with the free block below it. -/
def Heap.joinLower (h : Heap) (bp p : Nat) : Heap :=
  if h.fin p = bp then
    (h.setSize p ((h.size p + h.size bp) % 2 ^ 32)).setPtr p (h.ptr bp)
  else h.setPtr p bp

def free (fuel : Nat) (h : Heap) (ap : Nat) : Option Heap :=
  let bp := ap - unit
  (seek h.ptr (h.brackets bp) fuel h.freep).map fun p =>
    { (h.joinUpper bp p).joinLower bp p with freep := p }

/-- The argument of `sbrk`, an `int`. -/
def sbrkArgument (bytes : Nat) : Int :=
  if bytes % 2 ^ 32 < 2 ^ 31 then (bytes % 2 ^ 32 : Nat) else (bytes % 2 ^ 32 : Nat) - 2 ^ 32

def coreUnits (nu : Nat) : Nat := if nu < 4096 then 4096 else nu

/-- `morecore`, with a null pointer as `none`. -/
def morecore (sbrk : Sbrk) (fuel : Nat) (h : Heap) (nu : Nat) : Option (Heap × Option Nat) :=
  let nu := coreUnits nu
  let request := sbrkArgument (nu * unit)
  let called := { h with calls := (request, sbrk h.calls request) :: h.calls }
  match sbrk h.calls request with
  | none => some (called, none)
  | some hp => (free fuel (called.setSize hp nu) (hp + unit)).map fun h => (h, some h.freep)

/-- The end of `malloc` on a block that is large enough. -/
def Heap.take (h : Heap) (nunits prevp p : Nat) : Heap × Nat :=
  if h.size p = nunits then
    ({ h.setPtr prevp (h.ptr p) with freep := prevp }, p + unit)
  else
    let h := h.setSize p (h.size p - nunits)
    let p := h.fin p
    ({ h.setSize p nunits with freep := prevp }, p + unit)

/-- The loop of `malloc`; a null pointer is 0. -/
def mallocLoop (sbrk : Sbrk) : Nat → Heap → Nat → Nat → Nat → Option (Heap × Nat)
  | 0, _, _, _, _ => none
  | fuel + 1, h, nunits, prevp, p =>
    if nunits ≤ h.size p then some (h.take nunits prevp p)
    else if p = h.freep then
      match morecore sbrk fuel h nunits with
      | none => none
      | some (h, none) => some (h, 0)
      | some (h, some p) => mallocLoop sbrk fuel h nunits p (h.ptr p)
    else mallocLoop sbrk fuel h nunits p (h.ptr p)

/-- The units of a block for `nbytes` bytes, with its header. -/
def unitsFor (nbytes : Nat) : Nat := ((nbytes + unit - 1) / unit + 1) % 2 ^ 32

/-- The first call of `malloc` makes the list that holds only `base`. -/
def Heap.started (base : Nat) (h : Heap) : Heap :=
  if h.freep = 0 then { (h.setPtr base base).setSize base 0 with freep := base } else h

def malloc (base : Nat) (sbrk : Sbrk) (fuel : Nat) (h : Heap) (nbytes : Nat) :
    Option (Heap × Nat) :=
  let h := h.started base
  mallocLoop sbrk fuel h (unitsFor nbytes) h.freep (h.ptr h.freep)

end EnhancedXv6.Umalloc
