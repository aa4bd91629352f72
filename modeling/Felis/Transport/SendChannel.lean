import Felis.Foundations.FlushBuffer

/-!
# The send buffers of the threads

A `SendChannel` has a buffer for every thread. The thread appends frames to it: `Alloc` reserves the
memory behind `append_start`, the thread writes the frame there, and `Finish` moves `append_start`.
Any thread may flush any buffer: under the lock of the buffer it takes what is between
`flusher_start` and `append_start`, copies it to a buffer of its own, gives the lock back and writes
the copy to the network. When a frame does not fit, `Alloc` flushes the buffer itself and goes back
to its beginning.

Every access to shared memory is a step of the model, and so is every byte of a frame that is
written. `frames`, `copies` and `writes` are no part of the program: the frames that have been
finished, with their places; what has been copied out of the buffers; and what has been written to
the network.
-/

namespace Felis.Transport.Send

open Cells Function

def kPerThreadBuffer : ℕ := 16 <<< 10

abbrev Frame : Type := FlushBuffer.Frame UInt8

/-- The buffer of a thread. -/
abbrev Channel : Type := FlushBuffer.Buffer UInt8

/-- What follows a call of `PushRelease`. -/
inductive Return (T : Type)
  /-- `goto retry` in `Alloc(sz)`. -/
  | alloc (sz : ℕ)
  /-- The loop of `Flush`, with the buffers that have been flushed by then. -/
  | flush (flushed : Finset T)
  | done
  deriving DecidableEq

inductive Act (T : Type)
  | idle
  | alloc (sz : ℕ)
  /-- At `while (!TryLock(tid))`. -/
  | spin (sz stop : ℕ)
  /-- With the lock, about to read `flusher_start`. -/
  | locked (sz stop : ℕ)
  | rewindFlusher (sz start stop : ℕ)
  | rewindAppend (sz start stop : ℕ)
  | fill (ptr sz : ℕ)
  /-- In the loop of `Flush`. -/
  | flushing (flushed : Finset T)
  /-- With the lock, in `GetFlushRange`. -/
  | readStart (i : T) (k : Return T)
  | readEnd (i : T) (start : ℕ) (k : Return T)
  /-- At `UpdateFlushStart`. -/
  | update (i : T) (start stop : ℕ) (k : Return T)
  /-- At `memcpy` in `PushRelease`. -/
  | copy (i : T) (start stop : ℕ) (k : Return T)
  | unlock (i : T) (buf : List UInt8) (k : Return T)
  /-- At `WriteToNetwork`. -/
  | write (buf : List UInt8) (k : Return T)
  deriving DecidableEq

structure State (T : Type) where
  act : T → Act T
  channel : T → Channel
  writes : List (List UInt8)

inductive Event (T : Type)
  | alloc (sz : ℕ)
  | fill (off : ℕ) (b : UInt8)
  | finish
  /-- It calls `TryFlushForThread`, by itself or in `Flush`. -/
  | tryFlush (i : T)
  | flush
  | flushReturn
  | advance
  deriving DecidableEq

section

variable {T : Type}

def State.init (mem : T → ℕ → UInt8) : State T where
  act _ := .idle
  channel i := ⟨mem i, 0, 0, false, [], []⟩
  writes := []

def Return.act : Return T → Act T
  | .alloc sz => .alloc sz
  | .flush flushed => .flushing flushed
  | .done => .idle

variable [DecidableEq T]

namespace State

def setAct (s : State T) (t : T) (a : Act T) : State T :=
  { s with act := update s.act t a }

def setChannel (s : State T) (i : T) (c : Channel) : State T :=
  { s with channel := update s.channel i c }

def advance (s : State T) (t : T) : Option (State T) :=
  match s.act t with
  | .alloc sz =>
    let stop := (s.channel t).appendStart
    if kPerThreadBuffer ≤ stop + sz then some (s.setAct t (.spin sz stop))
    else some (s.setAct t (.fill stop sz))
  | .spin sz stop =>
    if (s.channel t).lock then none
    else some ((s.setChannel t { s.channel t with lock := true }).setAct t (.locked sz stop))
  | .locked sz stop => some (s.setAct t (.rewindFlusher sz (s.channel t).flusherStart stop))
  | .rewindFlusher sz start stop =>
    some ((s.setChannel t { s.channel t with flusherStart := 0 }).setAct t
      (.rewindAppend sz start stop))
  | .rewindAppend sz start stop =>
    some ((s.setChannel t { s.channel t with appendStart := 0 }).setAct t
      (.copy t start stop (.alloc sz)))
  | .readStart i k => some (s.setAct t (.readEnd i (s.channel i).flusherStart k))
  | .readEnd i start k => some (s.setAct t (.update i start (s.channel i).appendStart k))
  | .update i start stop k =>
    some ((s.setChannel i { s.channel i with flusherStart := stop }).setAct t
      (.copy i start stop k))
  | .copy i start stop k =>
    if 0 < stop - start then
      let buf := seg (s.channel i).mem start (stop - start)
      some ((s.setChannel i { s.channel i with copies := (s.channel i).copies ++ [buf] }).setAct t
        (.unlock i buf k))
    else some (s.setAct t (.unlock i [] k))
  | .unlock i buf k =>
    some ((s.setChannel i { s.channel i with lock := false }).setAct t
      (if buf = [] then k.act else .write buf k))
  | .write buf k => some { s.setAct t k.act with writes := s.writes ++ [buf] }
  | _ => none

/-- `TryLock` in `TryFlushForThread(i)`; nothing happens when the lock is taken. -/
def tryFlush (s : State T) (t i : T) (k : Return T) : State T :=
  if (s.channel i).lock then s
  else (s.setChannel i { s.channel i with lock := true }).setAct t (.readStart i k)

variable [Fintype T]

def step (s : State T) : T × Event T → Option (State T)
  | (t, .alloc sz) => if s.act t = .idle then some (s.setAct t (.alloc sz)) else none
  | (t, .fill off b) =>
    match s.act t with
    | .fill ptr sz =>
      if off < sz then
        some (s.setChannel t { s.channel t with mem := update (s.channel t).mem (ptr + off) b })
      else none
    | _ => none
  | (t, .finish) =>
    match s.act t with
    | .fill ptr sz =>
      let c := s.channel t
      some ((s.setChannel t { c with
        appendStart := c.appendStart + sz
        frames := c.frames ++ [⟨ptr, seg c.mem ptr sz⟩] }).setAct t .idle)
    | _ => none
  | (t, .tryFlush i) =>
    match s.act t with
    | .idle => some (s.tryFlush t i .done)
    | .flushing flushed =>
      if i ∈ flushed then none else some (s.tryFlush t i (.flush (insert i flushed)))
    | _ => none
  | (t, .flush) => if s.act t = .idle then some (s.setAct t (.flushing ∅)) else none
  | (t, .flushReturn) =>
    -- `while (flushed.count() < nr_threads)`
    if s.act t = .flushing Finset.univ then some (s.setAct t .idle) else none
  | (t, .advance) => s.advance t

end State

end

end Felis.Transport.Send
