/-!
# Output sinks

Where the output of programs goes.  A sink may take a limited number of bytes and may fail to flush;
it says so, and whoever writes to it may ignore that.

Main definitions:
* `Sink`: the bytes taken so far, how many it takes in all, and whether it can be flushed;
* `Sink.write` and `Sink.flush`: whether the sink did what it was asked, and the sink afterwards.
-/

namespace Lox

/-- A place to write bytes to.  Without a capacity it takes everything. -/
structure Sink where
  written : ByteArray := ByteArray.empty
  capacity : Option Nat := none
  flushes : Bool := true

namespace Sink

/-- How many of a number of further bytes the sink takes. -/
def room (sink : Sink) (size : Nat) : Nat :=
  match sink.capacity with
  | none => size
  | some capacity => min size (capacity - sink.written.size)

/-- Writes bytes, as many of them as the sink takes, and says whether it took them all. -/
def write (sink : Sink) (bytes : ByteArray) : Bool × Sink :=
  let taken := sink.room bytes.size
  (taken == bytes.size, { sink with written := sink.written ++ bytes.extract 0 taken })

/-- Says whether what was written is on its way. -/
def flush (sink : Sink) : Bool × Sink := (sink.flushes, sink)

/-- How much was written so far. -/
def size (sink : Sink) : Nat := sink.written.size

end Sink

end Lox
