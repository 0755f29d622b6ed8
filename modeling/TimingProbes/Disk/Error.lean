/-! # Failures of file operations -/

namespace TimingProbes

inductive IoError where
  | notFound
  | busy
  | fileExists
  | notADirectory
  | isADirectory
  | invalidArgument
  | nameTooLong
  | directoryNotEmpty
  | tooManyLinks
  /-- The bytes of a file are not UTF-8. -/
  | invalidUtf8
  | other (message : String)
deriving DecidableEq, Repr

def IoError.message : IoError → String
  | notFound => "No such file or directory (os error 2)"
  | busy => "Device or resource busy (os error 16)"
  | fileExists => "File exists (os error 17)"
  | notADirectory => "Not a directory (os error 20)"
  | isADirectory => "Is a directory (os error 21)"
  | invalidArgument => "Invalid argument (os error 22)"
  | nameTooLong => "File name too long (os error 36)"
  | directoryNotEmpty => "Directory not empty (os error 39)"
  | tooManyLinks => "Too many levels of symbolic links (os error 40)"
  | invalidUtf8 => "stream did not contain valid UTF-8"
  | other message => message

end TimingProbes
