/-
  THE CONSOLE — `console.c`, the input half.

  `input` is a ring of `INPUT_BUF` bytes with three indices that only count up and wrap: `[r, w)` is what has been
  committed and not been read, `[w, e)` is the line that is being edited.  `consoleintr` handles the keys, with
  `cons.lock` held from the first to the last of an interrupt; `consoleread` takes bytes out.

  * The control keys: `^N` deletes the digits of the line, `^R` reverses it, `^T` and `^E` count `e` up without storing
    anything, `^U` kills the line, `^H` and DEL the last character, TAB completes it from the saved commands (and stores
    nothing in the ring either), `^P` is for later.  Anything else is stored if there is room.
  * `int i = input.w` and the like: the loops compare `i` with `input.e` as `uint`, but `i % INPUT_BUF` is the remainder of
    an `int`, and negative from `2 ^ 31` on.  What the code finds outside of its arrays, or in a local array that it has not
    written, is part of the key (`Memory`).  A store beyond the end of an array is not seen by anybody.
  * `committed` and `consumed` are HISTORY: the bytes of `[w, e)` when `w` is set to `e`, and the bytes that `r` has passed.

  The screen (`consputc`) is not modelled, nor is the lock of the inode that `consoleread` gives up while it waits.
-/
import Xv6.Lib.Naps
import Xv6.Lib.Ring

namespace Xv6.Console

open Naps Rings
open Function (update)

abbrev INPUT_BUF : Nat := 128

/-- `C(x)`: Control-x -/
def C (x : Char) : UInt8 := UInt8.ofNat (x.toNat - '@'.toNat)

def newline : UInt8 := 10
def carriageReturn : UInt8 := 13
def tab : UInt8 := 9
def del : UInt8 := 0x7f
def space : UInt8 := 32

/-- An array of `char`. -/
abbrev Chars := Nat → UInt8

/-- `strlen`, of an array of `INPUT_BUF` chars. -/
def strlen (s : Chars) : Nat := ((List.range INPUT_BUF).find? fun i => s i = 0).getD INPUT_BUF

/-- `input`, and the commands it is completed from. -/
structure Input where
  buf : Chars
  r : BitVec 32
  w : BitVec 32
  e : BitVec 32
  /-- `cmd_history[15][INPUT_BUF]` -/
  cmdHistory : Nat → Chars
  completeResult : Chars
  committed : List UInt8
  consumed : List UInt8

/-- What is found outside of the arrays, and in arrays that have not been written. -/
structure Memory where
  /-- `input.buf[-1 - i]` -/
  below : Nat → UInt8
  newBuf : Chars
  buffer : Chars

/-- What `getc` returns, and the memory at that time. -/
structure Key where
  c : UInt8
  mem : Memory

/-! ## The saved commands -/

/-- `dst[i] = src[i]` for all `i < strlen(src)`, and `dst[strlen(src)] = '\0'` -/
def copyString (dst src : Chars) : Chars :=
  update ((List.range (strlen src)).foldl (fun d i => update d i (src i)) dst) (strlen src) 0

/-- `save_command`, the inner loop: the end is stored together with the last character. -/
def shiftString (dst src : Chars) : Chars :=
  (List.range (strlen src)).foldl (fun d j =>
    let d' := update d j (src j)
    if j = strlen src - 1 then update d' (j + 1) 0 else d') dst

/-- `save_command` -/
def saveCommand (history : Nat → Chars) (buffer : Chars) : Nat → Chars :=
  let shifted := (List.range 14).reverse.foldl (fun (h : Nat → Chars) i =>
    if h i 0 ≠ space then update h (i + 1) (shiftString (h (i + 1)) (h i)) else h) history
  update shifted 0 (copyString (shifted 0) buffer)

/-- `search`: does a saved command begin with what is to be completed? -/
def begins (result command : Chars) : Bool :=
  (List.range (strlen result)).all fun j => decide (j < strlen command) && decide (result j = command j)

/-- `search`: every command that matches replaces what is to be completed. -/
def search (history : Nat → Chars) (result : Chars) : Chars :=
  (List.range 15).foldl (fun res i => if begins res (history i) then copyString res (history i) else res) result

/-- `i % INPUT_BUF`, for an `int` -/
def ofInt (i : BitVec 32) : Int := i.toInt.tmod INPUT_BUF

namespace Input

variable (s : Input)

/-- `input.buf[i % INPUT_BUF]`, for a `uint` -/
def byteAt (i : BitVec 32) : UInt8 := s.buf (i.toNat % INPUT_BUF)

/-- `input.buf[i % INPUT_BUF]`, for an `int` -/
def atInt (m : Memory) (i : BitVec 32) : UInt8 :=
  if 0 ≤ ofInt i then s.buf (ofInt i).toNat else m.below (-ofInt i - 1).toNat

/-- `for(int i = input.w; i < end; i++)` -/
def upTo (stop : BitVec 32) : List (BitVec 32) :=
  (List.range (stop.toNat - s.w.toNat)).map fun k => s.w + BitVec.ofNat 32 k

/-- `for(int i = input.e - 1; i + 1 > input.w; i--)` -/
def downFrom : List (BitVec 32) :=
  (List.range (s.e.toNat - s.w.toNat)).map fun k => s.e - 1 - BitVec.ofNat 32 k

/-- `newBuf[idx++ % INPUT_BUF] = b` -/
def collect (x : Chars × Nat) (b : UInt8) : Chars × Nat := (update x.1 (x.2 % INPUT_BUF) b, x.2 + 1)

/-- `^N`: what is no digit -/
def nonDigits (m : Memory) : Chars × Nat :=
  (s.upTo s.e).foldl (fun x i => if s.atInt m i > 57 ∨ s.atInt m i < 48 then collect x (s.atInt m i) else x) (m.newBuf, 0)

/-- `^R`: the line, from its end -/
def reversed (m : Memory) : Chars × Nat := s.downFrom.foldl (fun x i => collect x (s.atInt m i)) (m.newBuf, 0)

/-- `while(input.e != input.w && input.buf[(input.e-1) % INPUT_BUF] != '\n') input.e--`, at most `n` times -/
def eraseLoop (buf : Chars) (w : BitVec 32) : Nat → BitVec 32 → BitVec 32
  | 0, e => e
  | n + 1, e => if e ≠ w ∧ buf ((e - 1).toNat % INPUT_BUF) ≠ newline then eraseLoop buf w n (e - 1) else e

/-- The loop that kills the line. -/
def erase : Input := { s with e := eraseLoop s.buf s.w (s.e - s.w).toNat s.e }

/-- `input.e++; input.buf[(input.w + i) % INPUT_BUF] = newBuf[i]` for all `i < idx` -/
def retype (newBuf : Chars) (idx : Nat) : Input :=
  (List.range idx).foldl (fun t i => { t with
    e := t.e + 1
    buf := update t.buf ((t.w + BitVec.ofNat 32 i).toNat % INPUT_BUF) (newBuf i) }) s

/-- TAB: the loop that kills the line and copies it, from its beginning, to `complete_result`. -/
def takeLoop (buf : Chars) (w : BitVec 32) : Nat → Nat × BitVec 32 × Chars → Nat × BitVec 32 × Chars
  | 0, x => x
  | n + 1, (index, e, result) =>
    if e ≠ w ∧ buf ((e - 1).toNat % INPUT_BUF) ≠ newline then
      takeLoop buf w n (index + 1, e - 1,
        update result index (buf ((w + BitVec.ofNat 32 index).toNat % INPUT_BUF)))
    else (index, e, result)

/-- TAB, before the completed line is counted. -/
def complete : Input :=
  match takeLoop s.buf s.w (s.e - s.w).toNat (0, s.e, s.completeResult) with
  | (index, e, result) => { s with e := e, completeResult := search s.cmdHistory (update result index 0) }

/-- `buffer`, at the end of a command -/
def command (m : Memory) : Chars :=
  update ((s.upTo (s.e - 1)).foldl (fun b i => update b (i - s.w).toNat (s.atInt m i)) m.buffer)
    ((s.e - s.w - 1).toNat % INPUT_BUF) 0

/-- The bytes of `[r, w)`: committed and not read. -/
def unread : List UInt8 := Ring.contents (⟨s.buf, s.r, s.w⟩ : Ring 32 INPUT_BUF UInt8)

/-- The bytes of `[w, e)` -/
def line : List UInt8 := Ring.contents (⟨s.buf, s.w, s.e⟩ : Ring 32 INPUT_BUF UInt8)

/-- `input.w = input.e` -/
def commit : Input := { s with w := s.e, committed := s.committed ++ s.line }

/-- The default case: `input.buf[input.e++ % INPUT_BUF] = c` -/
def store (c : UInt8) : Input :=
  { s with buf := update s.buf (s.e.toNat % INPUT_BUF) c, e := s.e + 1 }

/-- One key, and whether `wakeup(&input.r)` is called. -/
def key (k : Key) : Input × Bool :=
  if k.c = C 'N' then (s.erase.retype (s.nonDigits k.mem).1 (s.nonDigits k.mem).2, false)
  else if k.c = C 'R' then (s.erase.retype (s.reversed k.mem).1 (s.reversed k.mem).2, false)
  else if k.c = C 'T' ∨ k.c = C 'E' then ({ s with e := s.e + 1 }, false)
  else if k.c = C 'P' then (s, false)
  else if k.c = C 'U' then (s.erase, false)
  else if k.c = C 'H' ∨ k.c = del then (if s.e ≠ s.w then { s with e := s.e - 1 } else s, false)
  else if k.c = tab then
    ({ s.complete with e := s.complete.e + BitVec.ofNat 32 (strlen s.complete.completeResult) }, false)
  else if k.c ≠ 0 ∧ (s.e - s.r).toNat < INPUT_BUF then
    let c := if k.c = carriageReturn then newline else k.c
    let t := s.store c
    if c = newline ∨ c = C 'D' ∨ t.e = t.r + BitVec.ofNat 32 INPUT_BUF then
      let t := if c = newline then { t with cmdHistory := saveCommand t.cmdHistory (t.command k.mem) } else t
      (t.commit, true)
    else (t, false)
  else (s, false)

end Input

/-! ## The calls -/

inductive Call
  | consoleintr (keys : List Key)
  | consoleread (n : Int)

/-- Where a call is. -/
inductive Local
  | intr (keys : List Key) (doprocdump : Bool)
  | read (target n : Int) (dst : List UInt8)

/-- What a call returns; `consoleintr`, whether it is to call `procdump`. -/
inductive Result
  | intr (doprocdump : Bool)
  | read (ret : Int) (dst : List UInt8)

/-- One turn of `consoleread`'s loop. -/
def readTurn (target n : Int) (dst : List UInt8) (s : Input) : Turn Local Input Result :=
  if 0 < n then
    if s.r = s.w then .wait (.read target n dst)
    else
      let c := s.byteAt s.r
      let t := { s with r := s.r + 1, consumed := s.consumed ++ [c] }
      if c = C 'D' then
        -- `^D` is saved for the next call if there is something to return
        if n < target then .stop s (.read (target - n) dst) else .stop t (.read (target - n) dst)
      else if c = newline then .stop t (.read (target - (n - 1)) (dst ++ [c]))
      else .go (.read target (n - 1) (dst ++ [c])) t
  else .stop s (.read (target - n) dst)

/-- `consoleintr` and `consoleread`, under `cons.lock`. -/
def console : Code Call Local Input Result where
  enter
    | .consoleintr keys => .intr keys false
    | .consoleread n => .read n n []
  turn
    | .intr [] dump, s => .stop s (.intr dump)
    | .intr (k :: keys) dump, s =>
      match s.key k with
      | (t, true) => .wake (.intr keys (dump || k.c = C 'P')) t
      | (t, false) => .go (.intr keys (dump || k.c = C 'P')) t
    | .read target n dst, s => readTurn target n dst s
  fail
    | .read _ _ dst => .read (-1) dst
    | .intr _ dump => .intr dump
  first := ⟨fun _ => 0, 0, 0, 0, fun _ _ => 0, fun _ => 0, [], []⟩

end Xv6.Console
