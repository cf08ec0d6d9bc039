/-
# What a compilation is set up with

The target's pointers, the greatest alignment of a member, and the commands that a program may call.
-/
import BasicCompiler.Types.Builtin

namespace BasicCompiler

structure CommandDecl where
  name : String
  pattern : String
  linkName : String

structure Context where
  pointer : PointerWidth
  memberAlign : Nat
  commands : List CommandDecl

namespace Context

def standardCommands : List CommandDecl := [
  ⟨"print", "X G", "dbrt_print_str"⟩,
  ⟨"print", "X L", "dbrt_print_int"⟩,
  ⟨"print", "X R", "dbrt_print_long"⟩,
  ⟨"print", "X F", "dbrt_print_float"⟩,
  ⟨"print", "X O", "dbrt_print_double"⟩,
  ⟨"print", "X", "dbrt_print_newline"⟩,
  ⟨"str$", "G L", "dbrt_str_int"⟩,
  ⟨"str$", "G F", "dbrt_str_float"⟩,
  ⟨"val", "L G", "dbrt_val"⟩,
  ⟨"len", "L G", "dbrt_len"⟩,
  ⟨"left$", "G G L", "dbrt_left"⟩,
  ⟨"right$", "G G L", "dbrt_right"⟩,
  ⟨"mid$", "G G L L?", "dbrt_mid"⟩,
  ⟨"rnd", "L L", "dbrt_rnd"⟩,
  ⟨"abs", "L L", "dbrt_abs_int"⟩,
  ⟨"abs", "F F", "dbrt_abs_float"⟩,
  ⟨"sqrt", "F F", "dbrt_sqrt"⟩,
  ⟨"sin", "F F", "dbrt_sin"⟩,
  ⟨"cos", "F F", "dbrt_cos"⟩,
  ⟨"timer", "L", "dbrt_timer"⟩,
  ⟨"wait", "X L", "dbrt_wait"⟩,
  ⟨"swap", "X L* L*", "dbrt_swap_int"⟩,
  ⟨"max", "L L L+", "dbrt_max_int"⟩
]

/-- No commands; members aligned to a pointer at most. -/
def bare (pointer : PointerWidth) : Context := ⟨pointer, pointer.bytes, []⟩

def standard (pointer : PointerWidth) : Context := { bare pointer with commands := standardCommands }

end Context

end BasicCompiler
