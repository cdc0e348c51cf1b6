/-! Files, as far as the command line needs them. -/

set_option autoImplicit false

namespace Stencil.CommandLine

inductive FileError where
  | notFound
  | notADirectory
  | isADirectory
  | nameTooLong
  | notText
  | other (text : String)
  deriving DecidableEq, Repr

namespace FileError

def message : FileError → String
  | notFound => "No such file or directory (os error 2)"
  | notADirectory => "Not a directory (os error 20)"
  | isADirectory => "Is a directory (os error 21)"
  | nameTooLong => "File name too long (os error 36)"
  | notText => "stream did not contain valid UTF-8"
  | other text => text

def ofCode? : Nat → Option FileError
  | 2 => some notFound
  | 20 => some notADirectory
  | 21 => some isADirectory
  | 36 => some nameTooLong
  | _ => none

end FileError

structure Files (m : Type → Type) where
  read : String → m (Except FileError String)
  write : String → String → m (Except FileError Unit)

end Stencil.CommandLine
