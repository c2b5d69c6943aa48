import EnhancedXv6.Foundation.Ring
import EnhancedXv6.Foundation.Run

/-! The input side of `console.c`: `consoleintr` for each character that arrives, and any number of
processes in `consoleread`. A step is the handler, or a round of the loop of a reader under
`cons.lock`. -/

namespace EnhancedXv6.Console

open Foundation

def inputBufSize : Nat := 128

/-- The macro `C` on the code of a letter. -/
def ctrl (letter : UInt8) : UInt8 := letter - 64

def ctrlP : UInt8 := ctrl 80
def ctrlU : UInt8 := ctrl 85
def ctrlH : UInt8 := ctrl 72
def ctrlD : UInt8 := ctrl 68
def delete : UInt8 := 0x7f
def newline : UInt8 := 10
def carriageReturn : UInt8 := 13

/-- `cons` without its lock; the indices are of type `uint`. -/
structure Cons where
  buf : Nat → UInt8
  r : Nat
  w : Nat
  e : Nat

def Cons.before (c : Cons) : Nat := (c.e + (2 ^ 32 - 1)) % 2 ^ 32

/-- The loop of `C('U')`, with a bound on its rounds. -/
def Cons.killLine : Nat → Cons → Cons
  | 0, c => c
  | fuel + 1, c =>
    if c.e ≠ c.w ∧ c.buf (c.before % inputBufSize) ≠ newline then
      killLine fuel { c with e := c.before }
    else c

/-- The case of `C('H')` and the delete key. -/
def Cons.backspace (c : Cons) : Cons :=
  if c.e = c.w then c else { c with e := c.before }

/-- `cons.buf[cons.e++ % INPUT_BUF_SIZE] = c`. -/
def Cons.push (c : Cons) (ch : UInt8) : Cons :=
  { c with buf := Function.update c.buf (c.e % inputBufSize) ch, e := (c.e + 1) % 2 ^ 32 }

/-- A character is stored; the flag tells whether the readers are woken up. -/
def Cons.store (c : Cons) (ch : UInt8) : Cons × Bool :=
  let c := c.push ch
  if ch = newline ∨ ch = ctrlD ∨ ringCount (2 ^ 32) c.r c.e = inputBufSize then
    ({ c with w := c.e }, true)
  else (c, false)

def Cons.insert (c : Cons) (ch : UInt8) : Cons × Bool :=
  if ch ≠ 0 ∧ ringCount (2 ^ 32) c.r c.e < inputBufSize then
    c.store (if ch = carriageReturn then newline else ch)
  else (c, false)

/-- `consoleintr`. Echo and the process list of `C('P')` go to the UART only. -/
def Cons.consoleintr (c : Cons) (ch : UInt8) : Cons × Bool :=
  if ch = ctrlP then (c, false)
  else if ch = ctrlU then (c.killLine (ringCount (2 ^ 32) c.w c.e), false)
  else if ch = ctrlH ∨ ch = delete then (c.backspace, false)
  else c.insert ch

/-- A reader waits for `cons.lock`, holds it, or sleeps on `cons.r`. -/
inductive Stage
  | acquire
  | locked
  | asleep
  deriving DecidableEq, Repr

/-- What a process is doing with the console: `consoleread` has `n` of `target` bytes to go. The
calls are numbered. -/
inductive Phase
  | idle
  | reading (stage : Stage) (call target : Nat) (n : Int)
  deriving DecidableEq, Repr

/-- `taken` are the characters that left the buffer, `delivered` the bytes that were copied to a
reader, and `returns` the results, each with the number of the call. -/
structure State where
  cons : Cons
  lock : Option Nat
  phase : Nat → Phase
  killed : Nat → Bool
  calls : Nat
  taken : List (Nat × UInt8)
  delivered : List (Nat × UInt8)
  returns : List (Nat × Int)

def State.goto (s : State) (p : Nat) (next : Phase) : State :=
  { s with phase := Function.update s.phase p next }

def Phase.wake : Phase → Phase
  | .reading .asleep call target n => .reading .acquire call target n
  | phase => phase

def int32 (x : Int) : Int :=
  if x % 2 ^ 32 < 2 ^ 31 then x % 2 ^ 32 else x % 2 ^ 32 - 2 ^ 32

def State.finish (s : State) (p call : Nat) (result : Int) : State :=
  { s.goto p .idle with lock := none, returns := s.returns ++ [(call, result)] }

/-- A round of the loop of `consoleread`, with the outcome of `either_copyout`. -/
def State.readRound (s : State) (p call target : Nat) (n : Int) (copied : Bool) : State :=
  if 0 < n then
    if s.cons.r = s.cons.w then
      if s.killed p = true then s.finish p call (-1)
      else { s.goto p (.reading .asleep call target n) with lock := none }
    else
      let c := s.cons.buf (s.cons.r % inputBufSize)
      let r := (s.cons.r + 1) % 2 ^ 32
      if c = ctrlD then
        if n.toNat < target then
          -- the index goes back, and the next call finds the character
          { s with cons := { s.cons with r := (r + (2 ^ 32 - 1)) % 2 ^ 32 } }.finish p call
            (int32 (target - n))
        else
          { s with cons := { s.cons with r := r }, taken := s.taken ++ [(call, c)] }.finish p call
            (int32 (target - n))
      else if copied = false then
        { s with cons := { s.cons with r := r }, taken := s.taken ++ [(call, c)] }.finish p call
          (int32 (target - n))
      else
        let s := { s with
          cons := { s.cons with r := r }, taken := s.taken ++ [(call, c)],
          delivered := s.delivered ++ [(call, c)] }
        if c = newline then s.finish p call (int32 (target - (n - 1)))
        else s.goto p (.reading .locked call target (n - 1))
  else s.finish p call (int32 (target - n))

/-- A character arrives, a process calls `consoleread`, goes on with its call, or is killed. -/
inductive Event
  | intr (ch : UInt8)
  | read (p : Nat) (n : Int)
  | advance (p : Nat) (copied : Bool)
  | kill (p : Nat)

/-- The handler takes the lock; `wakeup` is for all readers that sleep. -/
def State.intr (s : State) (ch : UInt8) : State :=
  { s with
    cons := (s.cons.consoleintr ch).1
    phase := if (s.cons.consoleintr ch).2 = true then fun p => (s.phase p).wake else s.phase }

/-- A call of `consoleread`; `target` is `n` as a `uint`. -/
def State.consoleread (s : State) (p : Nat) (n : Int) : State :=
  { s.goto p (.reading .acquire s.calls (n % 2 ^ 32).toNat n) with calls := s.calls + 1 }

/-- `kill` also ends a sleep. -/
def State.kill (s : State) (p : Nat) : State :=
  { s.goto p (s.phase p).wake with killed := Function.update s.killed p true }

def State.advance (s : State) (p : Nat) (copied : Bool) : Option State :=
  match s.phase p with
  | .idle => none
  | .reading .acquire call target n =>
    if s.lock = none then
      some { s.goto p (.reading .locked call target n) with lock := some p }
    else
      none
  | .reading .locked call target n => some (s.readRound p call target n copied)
  | .reading .asleep _ _ _ => none

def State.step (s : State) : Event → Option State
  | .intr ch => if s.lock = none then some (s.intr ch) else none
  | .read p n =>
    if s.phase p = .idle ∧ -2 ^ 31 ≤ n ∧ n < 2 ^ 31 then some (s.consoleread p n) else none
  | .advance p copied => s.advance p copied
  | .kill p => some (s.kill p)

/-- The console after boot, with any bytes in its buffer. -/
def State.boot (buf : Nat → UInt8) : State :=
  { cons := ⟨buf, 0, 0, 0⟩
    lock := none
    phase := fun _ => .idle
    killed := fun _ => false
    calls := 0
    taken := []
    delivered := []
    returns := [] }

end EnhancedXv6.Console
