/-
# What is still to be released

Each block of a program opens a frame, in which the releases of what it makes are noted. They run from the innermost
frame outwards, in each frame the latest first.
-/
import BasicCompiler.Ir.Module

namespace BasicCompiler.Lowering

/-- What is released. -/
inductive Owned where
  | string
  | array
deriving DecidableEq

def Owned.release : Owned → String
  | .string => "__rt_string_free"
  | .array => "__rt_array_free"

/-- A release to be run later: of the handle in a register, or of the one that the slot
at an address holds then. -/
structure Cleanup where
  owned : Owned
  reg : Ir.Reg
  isSlot : Bool
deriving DecidableEq

namespace Cleanup

def direct (owned : Owned) (reg : Ir.Reg) : Cleanup := ⟨owned, reg, false⟩

def slot (owned : Owned) (reg : Ir.Reg) : Cleanup := ⟨owned, reg, true⟩

def indirect? (c : Cleanup) : Option Ir.Ty := if c.isSlot then some .handle else none

end Cleanup

/-- The open frames, the innermost first, the latest release of a frame first. -/
structure CleanupStack where
  frames : List (List Cleanup)
  exempt : List Ir.Reg
  /-- Every release that was ever noted, the latest first. -/
  noted : List Cleanup
  /-- The releases that were run together, whenever some were. -/
  released : List (List Cleanup)

namespace CleanupStack

def empty : CleanupStack := ⟨[], [], [], []⟩

def depth (s : CleanupStack) : Nat := s.frames.length

def pushFrame (s : CleanupStack) : CleanupStack := { s with frames := [] :: s.frames }

def register (s : CleanupStack) (c : Cleanup) : CleanupStack :=
  match s.frames with
  | [] => s
  | frame :: rest => { s with frames := (c :: frame) :: rest, noted := c :: s.noted }

def ignore (s : CleanupStack) (reg : Ir.Reg) : CleanupStack := { s with exempt := reg :: s.exempt }

def ran (s : CleanupStack) (cleanups : List Cleanup) : CleanupStack :=
  { s with released := cleanups :: s.released }

def live (s : CleanupStack) (cleanups : List Cleanup) : List Cleanup :=
  cleanups.filter fun c => !s.exempt.contains c.reg

/-- Takes off the innermost frame; answers its releases in the order they run. -/
def popFrame (s : CleanupStack) : List Cleanup × CleanupStack :=
  match s.frames with
  | [] => ([], s)
  | frame :: rest => (s.live frame, { s with frames := rest })

/-- The releases of every frame above the lowest `depth` ones, in the order they run. -/
def pendingFrom (s : CleanupStack) (depth : Nat) : List Cleanup :=
  s.live (s.frames.take (s.frames.length - depth)).flatten

end CleanupStack

end BasicCompiler.Lowering
