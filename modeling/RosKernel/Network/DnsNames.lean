import Mathlib.Data.List.GetD
import RosKernel.Library.Joined
import RosKernel.Network.Tcp

/-! Names in DNS messages, `network/dns.cpp`.

A message is a list of bytes; what a function would read outside it makes the function fail.
-/

set_option autoImplicit false

namespace RosKernel.Network.Dns

open Library List

def dot : UInt8 := 46

section

/-- A step of the loop: the buffer, and where the length of the current label goes. -/
def patch (state : Bytes × Nat) (i : Nat) : Bytes × Nat :=
  if state.1.getD (i + 1) 0 = dot then (state.1.set state.2 (UInt8.ofNat (i - state.2)), i + 1) else state

end

section

variable (message : Bytes)

def put (out : Bytes) (byte : UInt8) : Bytes := if out.length < 255 then out ++ [byte] else out

def terminated (out : Bytes) : Bytes := out.dropLast ++ [0]

end

/-- The text of a name with at least one label. -/
def text (label : Bytes) (rest : List Bytes) : Bytes := label ++ joined dot rest

def domain : List Bytes → Bytes
  | [] => []
  | label :: rest => text label rest

section

end

section

variable {message : Bytes}

section

variable {pos jumps : Nat} {out : Bytes} {returnPtr : Option Nat} {head : UInt8}

variable (read : message[pos]? = some head) (ne : head ≠ 0)
include read ne

variable (plain : head &&& 0xC0 ≠ 0xC0)
include plain

end

end

end RosKernel.Network.Dns
