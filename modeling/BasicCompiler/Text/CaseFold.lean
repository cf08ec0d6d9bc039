/-
# Names without regard to case

Names and keywords of the language ignore the case of ASCII letters, and only of those. `fold` gives the spelling that
stands for all of them.
-/
namespace BasicCompiler

/-- The text with every ASCII capital replaced by its small letter. -/
def fold (text : String) : String :=
  String.ofList (text.toList.map Char.toLower)

/-- Two names are the same name when they differ in ASCII case only. -/
def sameName (a b : String) : Bool := fold a == fold b

def lastChar (text : String) : Option Char := text.toList.getLast?

end BasicCompiler
