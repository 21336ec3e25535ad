/-!
# Sinks

A `Sink` takes the output of a program. It may have a capacity; a write that would exceed it is
refused whole, and an empty write is never refused.
-/

namespace BoundedC

inductive SinkFault where
  | closed
  deriving DecidableEq, Repr

def SinkFault.message : SinkFault → String
  | closed => "closed"

/-- What has been written, and how much there is room for. -/
structure Sink where
  written : Array UInt8
  capacity : Option Nat
  deriving DecidableEq, Repr

namespace Sink

def unlimited : Sink := ⟨#[], none⟩

def ofCapacity (capacity : Nat) : Sink := ⟨#[], some capacity⟩

def hasRoom (s : Sink) (count : Nat) : Bool :=
  count = 0 || s.capacity.all (s.written.size + count ≤ ·)

def write : Sink → List UInt8 → Except SinkFault Unit × Sink
  | ⟨written, capacity⟩, bytes =>
    if hasRoom ⟨written, capacity⟩ bytes.length then (.ok (), ⟨written.appendList bytes, capacity⟩)
    else (.error .closed, ⟨written, capacity⟩)

theorem write_of_hasRoom {s : Sink} {bytes : List UInt8} (h : s.hasRoom bytes.length) :
    s.write bytes = (.ok (), ⟨s.written ++ bytes, s.capacity⟩) := by
  simp [write, h]

theorem write_nil (s : Sink) : s.write [] = (.ok (), s) := by
  simp [write, hasRoom]

end Sink

end BoundedC
